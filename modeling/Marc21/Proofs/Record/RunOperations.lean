import Marc21.Proofs.Field.Editing
import Marc21.Proofs.Record.Assembly
import Marc21.Proofs.Record.Deletion

/-!
Operations that go by a tag. Each of them looks at one run of fields only, the one that starts at the first field with
the tag. In a record in order this run is all there is of the tag, so a question is put to every field that has it
(`hasTagWithIndicators_iff`, `subfieldValues_eq`), and a change is made to every one of them and to no other
(`editRun_of_ordered`). Another tag can put the fields of the run out of order, and then a stable sort puts them where
they belong (`retag_of_ordered`).
-/

namespace Marc21

namespace Field

variable {f : Field} {code : Char}

theorem mem_subfields_deleteSubfields (hdata : f.isControl = false) {s : Subfield} :
    s ∈ (f.deleteSubfields code).subfields ↔ s ∈ f.subfields ∧ s.code ≠ code := by
  rw [subfields_deleteSubfields hdata, Subfields.deleteAll_eq, List.mem_filter, decide_eq_true_eq]

/-- A data field stays as it is exactly if it is made of indicators and runs, none of which has the code. -/
theorem deleteSubfields_eq_self_iff (hdata : f.isControl = false) : f.deleteSubfields code = f ↔
    ∃ indicator1 indicator2, ∃ runs : List Run, f.MadeOf indicator1 indicator2 runs ∧ ∀ r ∈ runs, r.code ≠ code := by
  constructor
  · intro hsame
    have habsent : ∀ s ∈ f.subfields, s.code ≠ code := by
      intro s hs
      rw [← hsame] at hs
      exact ((mem_subfields_deleteSubfields hdata).1 hs).2
    have hall : f.subfields.deleteAll code = f.subfields := by
      rw [Subfields.deleteAll_eq]
      exact List.filter_eq_self.2 fun s hs => decide_eq_true (habsent s hs)
    rw [deleteSubfields, if_neg (by simp [hdata]), hall] at hsame
    obtain ⟨i, j, runs, hruns⟩ := f.withSubfields_eq_self_iff.1 hsame
    refine ⟨i, j, runs, hruns, fun r hr => habsent r.toSubfield ?_⟩
    rw [hruns.subfields_eq]
    exact List.mem_map_of_mem hr
  · rintro ⟨i, j, runs, hruns, habsent⟩
    have hkept : runs.filter (·.code ≠ code) = runs :=
      List.filter_eq_self.2 fun r hr => decide_eq_true (habsent r hr)
    have hdeleted := hruns.deleteSubfields hdata code
    rw [hkept] at hdeleted
    rw [hdeleted.eq_data, Record.tag_deleteSubfields, ← hruns.eq_data]

end Field

namespace Record

variable {r : Record}

theorem fieldsIn_tagSpan (r : Record) (tag : Tag) : fieldsIn r.fields (r.tagSpan tag) = r.fieldsWithTag tag :=
  (fieldsIn_of_drop (r.drop_tagSpan tag) (r.tagSpan_stop tag).symm).1

/-- In a record in order, a change of a run is made to every field with the tag, and to no other. -/
theorem editRun_of_ordered (h : Ordered r.fields) (tag : Tag) (edit : Field → Field) :
    r.editRun tag edit = r.fields.map fun f => if f.tag = tag then edit f else f := by
  obtain ⟨hfront, hbehind⟩ := filter_beside_run h tag
  have hbeside {fs : List Field} (hnone : fs.filter (·.tag = tag) = []) :
      fs.map (fun f => if f.tag = tag then edit f else f) = fs := by
    rw [List.map_congr_left (g := id), List.map_id]
    intro f hf
    have htag : f.tag ≠ tag := by simpa using List.filter_eq_nil_iff.1 hnone f hf
    exact if_neg htag
  have hrun : (r.fieldsWithTag tag).map (fun f => if f.tag = tag then edit f else f) =
      (r.fieldsWithTag tag).map edit :=
    List.map_congr_left fun f hf => if_pos (r.tag_eq_of_mem_fieldsWithTag tag f hf)
  conv_rhs => rw [← r.append_fieldsWithTag tag]
  rw [List.map_append, List.map_append, hbeside hfront, hbeside hbehind, hrun, editRun]

theorem hasTagWithIndicators_iff (h : Ordered r.fields) (tag : Tag) (indicator1 indicator2 : Char) :
    r.hasTagWithIndicators tag indicator1 indicator2 = true ↔
      ∃ f ∈ r.fields, f.tag = tag ∧ f.indicator1? = some indicator1 ∧ f.indicator2? = some indicator2 := by
  rw [hasTagWithIndicators, fieldsWithTag_of_ordered h, List.any_eq_true]
  simp [and_assoc]

theorem subfieldValues_eq (h : Ordered r.fields) (tag : Tag) (codes : String) : r.subfieldValues tag codes =
    (((r.fields.filter (·.tag = tag)).flatMap Field.subfields).filter
      fun s => codes.toList.contains s.code).map Subfield.value := by
  rw [subfieldValues, fieldsWithTag_of_ordered h, List.filter_flatMap, List.map_flatMap]
  rfl

theorem fields_deleteSubfields_of_ordered (h : Ordered r.fields) (tag : Tag) (code : Char) :
    (r.deleteSubfields tag code).fields =
      r.fields.map fun f => if f.tag = tag then f.deleteSubfields code else f :=
  editRun_of_ordered h tag fun f => f.deleteSubfields code

/-- No field with the tag has a subfield with the code left. -/
theorem code_ne_of_deleteSubfields (h : Ordered r.fields) {tag : Tag} (hdata : tag.isControl = false) (code : Char) :
    ∀ f ∈ (r.deleteSubfields tag code).fields, f.tag = tag → ∀ s ∈ f.subfields, s.code ≠ code := by
  intro g hg htag
  rw [fields_deleteSubfields_of_ordered h, List.mem_map] at hg
  obtain ⟨f, _, rfl⟩ := hg
  by_cases hf : f.tag = tag
  · have hfdata : f.isControl = false := by rw [Field.isControl, hf, hdata]
    rw [if_pos hf]
    exact fun s hs => ((Field.mem_subfields_deleteSubfields hfdata).1 hs).2
  · rw [if_neg hf] at htag
    exact absurd htag hf

/-- The fields get their new tag where they stand, and then they are sorted. -/
theorem retag_of_ordered (h : Ordered r.fields) (old new : Tag) :
    let renamed := r.fields.map fun f => if f.tag = old then { f with tag := new } else f
    r.retag old new = ((r.fields.filter (·.tag = old)).length, { r with fields := sortFields renamed }) := by
  intro renamed
  have hrenamed : r.editRun old (fun f => { f with tag := new }) = renamed := editRun_of_ordered h old _
  rw [← hrenamed, ← fieldsWithTag_of_ordered h, retag]
  by_cases hnone : (r.fieldsWithTag old).length = 0
  · -- Nothing is changed, and a record in order is not changed by sorting either.
    have hsame : r.editRun old (fun f => { f with tag := new }) = r.fields := by
      have hparts := r.append_fieldsWithTag old
      rw [List.length_eq_zero_iff.1 hnone] at hparts
      rw [editRun, List.length_eq_zero_iff.1 hnone, List.map_nil, hparts]
    rw [if_pos hnone, hnone, hsame, sortFields_of_ordered h]
  · rw [if_neg hnone, sorted]

/-! ## Main result -/

/-- What a deletion of subfields under a tag makes of a field. -/
structure Stripped (tag : Tag) (code : Char) (f g : Field) : Prop where
  tag_eq : g.tag = f.tag
  eq_of_spared : f.tag ≠ tag ∨ tag.isControl = true → g = f
  subfields_eq : f.tag = tag → tag.isControl = false → g.subfields = f.subfields.filter (·.code ≠ code)
  eq_iff : f.tag = tag → tag.isControl = false → (g = f ↔ ∃ indicator1 indicator2, ∃ runs : List Run,
    f.MadeOf indicator1 indicator2 runs ∧ ∀ r ∈ runs, r.code ≠ code)

theorem stripped_deleteSubfields (tag : Tag) (code : Char) (f : Field) :
    Stripped tag code f (if f.tag = tag then f.deleteSubfields code else f) := by
  by_cases hf : f.tag = tag
  · rw [if_pos hf]
    have hdata (hcontrol : tag.isControl = false) : f.isControl = false := by rw [Field.isControl, hf, hcontrol]
    refine ⟨tag_deleteSubfields code f, ?_, fun _ h => ?_, fun _ h => Field.deleteSubfields_eq_self_iff (hdata h)⟩
    · rintro (hother | hcontrol)
      · exact absurd hf hother
      · exact Field.deleteSubfields_of_isControl (by rw [Field.isControl, hf, hcontrol]) code
    · rw [Field.subfields_deleteSubfields (hdata h), Subfields.deleteAll_eq]
  · rw [if_neg hf]
    exact ⟨rfl, fun _ => rfl, fun htag => absurd htag hf, fun htag => absurd htag hf⟩

/-- **In a record in order, what goes by a tag goes by all fields that have it.** The run of the tag is the list of all
of them. One with given indicators is found exactly if there is one, and values are taken from all of them. A deletion
of subfields leaves none with the code in any of them, unless the tag is a control tag, and it touches no field with
another tag. Another tag goes to all of them, as many as are counted, and the record then is a stable sort of the fields
as they stood, each with its contents. -/
theorem tagRun_covers {r : Record} (h : r.fields.Pairwise Field.NoLater) (tag : Tag) :
    let tagged := r.fields.filter (·.tag = tag)
    (fieldsIn r.fields (r.tagSpan tag) = tagged ∧ r.fieldsWithTag tag = tagged) ∧
    (∀ indicator1 indicator2, r.hasTagWithIndicators tag indicator1 indicator2 = true ↔
      ∃ f ∈ r.fields, f.tag = tag ∧ f.indicator1? = some indicator1 ∧ f.indicator2? = some indicator2) ∧
    (∀ codes, r.subfieldValues tag codes =
      ((tagged.flatMap Field.subfields).filter fun s => codes.toList.contains s.code).map Subfield.value) ∧
    (∀ code, let s := r.deleteSubfields tag code
      (tag.isControl = false → ∀ f ∈ s.fields, f.tag = tag → ∀ part ∈ f.subfields, part.code ≠ code) ∧
      List.Forall₂ (Stripped tag code) r.fields s.fields) ∧
    ∀ new, let renamed := r.fields.map fun f => if f.tag = tag then { f with tag := new } else f
      r.retag tag new = (tagged.length, { r with fields := sortFields renamed }) ∧
        StablySorted renamed (sortFields renamed) := by
  intro tagged
  have hordered : Ordered r.fields := h.imp Field.noLater_iff.1
  have hrun : r.fieldsWithTag tag = tagged := fieldsWithTag_of_ordered hordered tag
  refine ⟨⟨(r.fieldsIn_tagSpan tag).trans hrun, hrun⟩, hasTagWithIndicators_iff hordered tag,
    subfieldValues_eq hordered tag, fun code => ⟨fun hdata => ?_, ?_⟩, fun new => ?_⟩
  · exact code_ne_of_deleteSubfields hordered hdata code
  · rw [fields_deleteSubfields_of_ordered hordered, List.forall₂_map_right_iff]
    exact List.forall₂_same.2 fun f _ => stripped_deleteSubfields tag code f
  · exact ⟨retag_of_ordered hordered tag new, stablySorted_sortFields _⟩

/-- Two notes go behind a name when they get a higher tag, and they lose what they hold under a code. -/
theorem tagRun_covers_notes :
    let note : Tag := { first := 0x35, second := 0x30, third := 0x30 }
    let name : Tag := { first := 0x37, second := 0x30, third := 0x30 }
    let other : Tag := { first := 0x39, second := 0x30, third := 0x30 }
    let r := ofParts (Leader.fresh .languageMaterial .monographOrItem) [⟨Tag.controlNumber, "1"⟩,
      ⟨note, "  \x1FaA\x1F5X"⟩, ⟨note, " 1\x1FaB"⟩, ⟨name, "1 \x1FaC\x1F5X"⟩]
    r.fields.Pairwise Field.NoLater ∧
      r.fieldsWithTag note = [⟨note, "  \x1FaA\x1F5X"⟩, ⟨note, " 1\x1FaB"⟩] ∧
      r.hasTagWithIndicators note ' ' '1' = true ∧ r.subfieldValues note "a5" = ["A", "X", "B"] ∧
      (note.isControl = false ∧
        ∀ f ∈ (r.deleteSubfields note '5').fields, f.tag = note → ∀ part ∈ f.subfields, part.code ≠ '5') ∧
      (r.retag note other).1 = 2 ∧ StablySorted [⟨Tag.controlNumber, "1"⟩, ⟨other, "  \x1FaA\x1F5X"⟩,
        ⟨other, " 1\x1FaB"⟩, ⟨name, "1 \x1FaC\x1F5X"⟩] (r.retag note other).2.fields := by
  intro note name other r
  have hordered : Ordered r.fields := by
    unfold Ordered
    decide
  have hsorted : r.fields.Pairwise Field.NoLater := hordered.imp Field.noLater_iff.2
  obtain ⟨⟨_, hrun⟩, hindicators, hvalues, hdeleted, hretagged⟩ := tagRun_covers hsorted note
  have hdata : note.isControl = false := by decide
  have hnote : ∃ f ∈ r.fields, f.tag = note ∧ f.indicator1? = some ' ' ∧ f.indicator2? = some '1' :=
    ⟨⟨note, " 1\x1FaB"⟩, by simp [r, ofParts], rfl, by decide, by decide⟩
  refine ⟨hsorted, hrun.trans (by decide), (hindicators ' ' '1').2 hnote, (hvalues "a5").trans (by decide),
    ⟨hdata, (hdeleted '5').1 hdata⟩, ?_, ?_⟩
  · rw [(hretagged other).1]
    decide
  · rw [(hretagged other).1]
    exact (hretagged other).2

end Record

end Marc21
