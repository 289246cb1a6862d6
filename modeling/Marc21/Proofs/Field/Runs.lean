import Marc21.Proofs.Field.Decoding
import Marc21.Proofs.Record.SubfieldEdits

/-!
Contents that are made of runs. A run is a subfield as it stands in contents: a delimiter, a code and a text, of which
neither is or holds another delimiter. Contents of two indicators and runs decode to just these runs
(`MadeOf.subfields_eq`), and no others are written back as they were (`withSubfields_eq_self_iff`). So encoding and
decoding undo each other on runs and nowhere else (`subfields_codec`).
-/

namespace Marc21

/-- A subfield that can be told from its neighbours where it stands in contents. -/
structure Run extends Subfield where
  clean : toSubfield.Clean

namespace Run

def chars (r : Run) : List Char := delimiter :: r.code :: r.value.toList

theorem encode_map (runs : List Run) :
    Subfields.encode (runs.map Run.toSubfield) = runs.flatMap Run.chars := by
  rw [Subfields.encode, List.flatMap_map]
  rfl

theorem clean_of_mem_map {runs : List Run} : ∀ s ∈ runs.map Run.toSubfield, s.Clean := by
  rw [List.forall_mem_map]
  exact fun r _ => r.clean

theorem exists_map_eq {ss : Subfields} (h : ∀ s ∈ ss, s.Clean) :
    ∃ runs : List Run, runs.map Run.toSubfield = ss := by
  induction ss with
  | nil => exact ⟨[], rfl⟩
  | cons s ss ih =>
    obtain ⟨hs, hss⟩ := List.forall_mem_cons.1 h
    obtain ⟨runs, rfl⟩ := ih hss
    exact ⟨⟨s, hs⟩ :: runs, rfl⟩

end Run

namespace Field

variable {f : Field} {indicator1 indicator2 : Char} {runs : List Run}

/-- The contents are these two indicators and these runs, and nothing else. -/
def MadeOf (f : Field) (indicator1 indicator2 : Char) (runs : List Run) : Prop :=
  f.contents.toList = indicator1 :: indicator2 :: runs.flatMap Run.chars

theorem madeOf_data (tag : Tag) (indicator1 indicator2 : Char) (runs : List Run) :
    (data tag indicator1 indicator2 (runs.map Run.toSubfield)).MadeOf indicator1 indicator2 runs := by
  rw [MadeOf, toList_contents_data, Run.encode_map]

namespace MadeOf

theorem eq_data (h : f.MadeOf indicator1 indicator2 runs) :
    f = data f.tag indicator1 indicator2 (runs.map Run.toSubfield) := by
  rw [data, Run.encode_map, ← h, String.ofList_toList]

theorem subfields_eq (h : f.MadeOf indicator1 indicator2 runs) :
    f.subfields = runs.map Run.toSubfield := by
  rw [h.eq_data, subfields_data _ _ _ Run.clean_of_mem_map]

/-- Other runs in the place of the old ones. -/
theorem withSubfields (h : f.MadeOf indicator1 indicator2 runs) (others : List Run) :
    (f.withSubfields (others.map Run.toSubfield)).MadeOf indicator1 indicator2 others := by
  rw [withSubfields_of_toList h]
  exact madeOf_data f.tag indicator1 indicator2 others

end MadeOf

/-- A field is written back as it was exactly if it is made of indicators and runs. -/
theorem withSubfields_eq_self_iff (f : Field) :
    f.withSubfields f.subfields = f ↔ ∃ indicator1 indicator2 runs, f.MadeOf indicator1 indicator2 runs := by
  constructor
  · intro hsame
    obtain ⟨i, j, hcontents⟩ := contents_withSubfields_eq_iff.1 (congrArg Field.contents hsame)
    obtain ⟨runs, hruns⟩ := Run.exists_map_eq fun s (hs : s ∈ f.subfields) => Subfields.clean_ofContents hs
    exact ⟨i, j, runs, by rw [MadeOf, hcontents, ← hruns, Run.encode_map]⟩
  · rintro ⟨i, j, runs, h⟩
    rw [h.subfields_eq, withSubfields_of_toList h]
    exact h.eq_data.symm

/-- A data field gives back the subfields it is made of exactly if each of them is a run. -/
theorem subfields_data_eq_iff (tag : Tag) (indicator1 indicator2 : Char) (ss : Subfields) :
    (data tag indicator1 indicator2 ss).subfields = ss ↔ ∀ s ∈ ss, s.Clean := by
  constructor
  · intro hsame s hs
    rw [← hsame] at hs
    exact Subfields.clean_ofContents hs
  · exact subfields_data tag indicator1 indicator2

/-! ## Main result -/

/-- **Encoding and decoding of subfields.** A data field has the indicators it is made of, and it gives back its
subfields in their order exactly if no code is a delimiter and no value holds one. Decoding takes all contents, and
cuts them at the ends of characters. What comes of it is written back as the same contents exactly if they are two
characters and then any number of runs: a delimiter, a code, and a text, which may be empty. -/
theorem subfields_codec :
    (∀ (tag : Tag) (indicator1 indicator2 : Char) (ss : Subfields),
      let f := data tag indicator1 indicator2 ss
      f.indicator1? = some indicator1 ∧ f.indicator2? = some indicator2 ∧
        (f.subfields = ss ↔ ∀ s ∈ ss, s.code ≠ delimiter ∧ delimiter ∉ s.value.toList)) ∧
    ∀ f : Field, Subfields.ofOffsets? f.contents = some f.subfields ∧
      (f.withSubfields f.subfields = f ↔ ∃ indicator1 indicator2, ∃ runs : List Run,
        f.contents.toList = indicator1 :: indicator2 :: runs.flatMap Run.chars) := by
  refine ⟨fun tag i j ss => ⟨indicator1?_data tag i j ss, indicator2?_data tag i j ss, ?_⟩, fun f => ?_⟩
  · rw [subfields_data_eq_iff]
    exact forall₂_congr fun s _ => ⟨fun h => ⟨h.code_ne, h.not_mem_value⟩, fun h => ⟨h.1, h.2⟩⟩
  · exact ⟨Subfields.ofOffsets?_eq f.contents, f.withSubfields_eq_self_iff⟩

/-- Characters of several bytes do no harm, and neither does an empty value. -/
example : let f : Field := ⟨Tag.titleStatement, "é“\x1Fßü\x1Fa"⟩
    f.withSubfields f.subfields = f := by decide

/-- A delimiter without a code gets lost, what stands before the first one does too, and missing indicators turn up. -/
example : ∀ contents ∈ ["", "1", "10\x1F", "10\x1F\x1Fax", "10x\x1Fax"],
    let f : Field := ⟨Tag.titleStatement, contents⟩
    f.withSubfields f.subfields ≠ f := by decide

end Field

end Marc21
