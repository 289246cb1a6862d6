import Mathlib.Data.List.Forall2
import Marc21.Proofs.Record.Invariant
import Marc21.Proofs.Record.Run
import Marc21.Proofs.Record.Validity

/-!
Edits of subfields where there are none. The contents of a control field are plain text, and what is made of
their decoded form has only the first two characters left. Three of the four edits keep away from control
fields (`forall₂_addSubfield`, `forall₂_deleteSubfields`). The one that gives a subfield of a field another value
does not look at the tag, and it leaves contents alone exactly if they are two indicators and subfields that
have the value already (`contents_insertOrReplace_eq_iff`).
-/

namespace Marc21

namespace Subfields

variable {ss : Subfields} {code : Char} {value : String}

/-- The subfields with another value under a code, or with one more. -/
def put (ss : Subfields) (code : Char) (value : String) : Subfields :=
  (ss.replaceFirst? code value).getD (ss.add code value)

theorem replaceFirst?_eq_self_iff : ss.replaceFirst? code value = some ss ↔ ss.first? code = some value := by
  induction ss with
  | nil => simp [replaceFirst?, first?]
  | cons s ss ih =>
    obtain ⟨c, v⟩ := s
    by_cases h : c = code
    · simp [replaceFirst?, first?, h, eq_comm]
    · simpa [replaceFirst?, first?, h] using ih

theorem length_add : (ss.add code value).length = ss.length + 1 := by
  obtain ⟨before, after, hss, hadd⟩ := ss.add_append code value
  rw [hadd, hss, List.length_append, List.length_append, List.length_cons, Nat.add_assoc]

/-- Nothing changes exactly if the first subfield with the code has the value. -/
theorem put_eq_self_iff : ss.put code value = ss ↔ ss.first? code = some value := by
  rw [← replaceFirst?_eq_self_iff, put]
  cases h : ss.replaceFirst? code value with
  | none =>
    simp only [Option.getD_none, reduceCtorEq, iff_false]
    intro heq
    have hlength := congrArg List.length heq
    rw [length_add] at hlength
    omega
  | some rest => simp

theorem exists_of_replaceFirst? {rest : Subfields} (h : ss.replaceFirst? code value = some rest) :
    ∃ before s after, ss = before ++ s :: after ∧ rest = before ++ ⟨code, value⟩ :: after := by
  induction ss generalizing rest with
  | nil => cases h
  | cons t ss ih =>
    by_cases ht : t.code = code
    · rw [replaceFirst?, if_pos ht] at h
      cases h
      exact ⟨[], t, ss, rfl, rfl⟩
    · rw [replaceFirst?, if_neg ht] at h
      obtain ⟨rest, hrest, rfl⟩ := Option.map_eq_some_iff.1 h
      obtain ⟨before, s, after, rfl, rfl⟩ := ih hrest
      exact ⟨t :: before, s, after, rfl, rfl⟩

/-- The value stands between subfields that were there, in the place of one or of none. -/
theorem put_split (ss : Subfields) (code : Char) (value : String) :
    ∃ before replaced after, ss = before ++ replaced ++ after ∧
      ss.put code value = before ++ ⟨code, value⟩ :: after := by
  rw [put]
  cases hrest : ss.replaceFirst? code value with
  | some rest =>
    obtain ⟨before, s, after, rfl, rfl⟩ := exists_of_replaceFirst? hrest
    exact ⟨before, [s], after, by simp, rfl⟩
  | none =>
    obtain ⟨before, after, hss, hadd⟩ := ss.add_append code value
    exact ⟨before, [], after, by rw [hss, List.append_nil], hadd⟩

theorem mem_of_mem_put {s : Subfield} (h : s ∈ ss.put code value) : s = ⟨code, value⟩ ∨ s ∈ ss := by
  obtain ⟨before, replaced, after, hss, hput⟩ := ss.put_split code value
  rw [hput, List.mem_append, List.mem_cons] at h
  rw [hss, List.mem_append, List.mem_append]
  rcases h with hbefore | hs | hafter
  · exact .inr (.inl (.inl hbefore))
  · exact .inl hs
  · exact .inr (.inr hafter)

/-- A text without a delimiter has no subfields. -/
theorem ofContents_of_not_mem {contents : String} (h : delimiter ∉ contents.toList) :
    ofContents contents = [] := by
  have hrest : delimiter ∉ contents.toList.drop 2 := fun hmem => h (List.mem_of_mem_drop hmem)
  have hruns := delimitedRuns_append hrest []
  rw [List.append_nil] at hruns
  rw [ofContents, hruns]
  rfl

end Subfields

namespace Field

variable {f : Field} {code : Char} {value : String}

theorem insertOrReplace_eq : f.insertOrReplace code value = f.withSubfields (f.subfields.put code value) :=
  rfl

theorem contents_withSubfields_eq_iff {ss : Subfields} : (f.withSubfields ss).contents = f.contents ↔
    ∃ i j, f.contents.toList = i :: j :: ss.encode := by
  constructor
  · intro h
    refine ⟨f.indicator1?.getD ' ', f.indicator2?.getD ' ', ?_⟩
    rw [← h, withSubfields, toList_contents_data]
  · rintro ⟨i, j, h⟩
    rw [withSubfields_of_toList h, ← String.toList_inj, toList_contents_data, h]

/-- Contents stay as they are only if the value is in them under the code. -/
theorem encode_infix_of_contents_eq (h : (f.insertOrReplace code value).contents = f.contents) :
    Subfield.encode ⟨code, value⟩ <:+: f.contents.toList.drop 2 := by
  rw [insertOrReplace_eq, contents_withSubfields_eq_iff] at h
  obtain ⟨i, j, hlist⟩ := h
  obtain ⟨before, _, after, _, hsplit⟩ := f.subfields.put_split code value
  refine ⟨Subfields.encode before, Subfields.encode after, ?_⟩
  rw [hlist, hsplit, Subfields.encode, Subfields.encode, Subfields.encode]
  simp

/-- What is put into contents without a delimiter leaves two characters of them. -/
theorem contents_insertOrReplace_of_plain (h : delimiter ∉ f.contents.toList) :
    (f.insertOrReplace code value).contents.toList =
      f.indicator1?.getD ' ' :: f.indicator2?.getD ' ' :: Subfield.encode ⟨code, value⟩ := by
  rw [insertOrReplace_eq, subfields, Subfields.ofContents_of_not_mem h, withSubfields,
    toList_contents_data]
  simp [Subfields.put, Subfields.replaceFirst?, Subfields.add, Subfields.encode]

/-- Contents stay as they are exactly if they are two indicators and subfields, and the first one with the
code has the value. -/
theorem contents_insertOrReplace_eq_iff (h : Subfield.Clean ⟨code, value⟩) :
    (f.insertOrReplace code value).contents = f.contents ↔
      (∃ i j, f.contents.toList = i :: j :: f.subfields.encode) ∧ f.subfields.first? code = some value := by
  rw [insertOrReplace_eq, contents_withSubfields_eq_iff, ← Subfields.put_eq_self_iff]
  constructor
  · rintro ⟨i, j, hlist⟩
    have hclean : ∀ s ∈ f.subfields.put code value, s.Clean := by
      intro s hs
      rcases Subfields.mem_of_mem_put hs with rfl | hs
      · exact h
      · exact Subfields.clean_ofContents hs
    have hdecoded := subfields_data f.tag i j hclean
    have hcontents : data f.tag i j (f.subfields.put code value) = f := by
      rw [data, ← hlist, String.ofList_toList]
    rw [hcontents] at hdecoded
    refine ⟨⟨i, j, ?_⟩, hdecoded.symm⟩
    rw [← hdecoded] at hlist
    exact hlist
  · rintro ⟨⟨i, j, hlist⟩, hput⟩
    exact ⟨i, j, by rw [hput, hlist]⟩

theorem deleteSubfields_of_isControl (h : f.isControl = true) (code : Char) : f.deleteSubfields code = f :=
  if_pos h

/-- A field, and what an edit makes of it that leaves control fields alone. -/
structure Spared (f g : Field) : Prop where
  tag_eq : g.tag = f.tag
  eq_of_isControl : f.isControl = true → g = f

theorem Spared.refl (f : Field) : f.Spared f := ⟨rfl, fun _ => rfl⟩

end Field

namespace Record

variable {edit : Field → Field} {R : Field → Field → Prop}

theorem forall₂_editFirst (hrefl : ∀ f, R f f) {tag : Tag} (hedit : ∀ f, f.tag = tag → R f (edit f))
    (fs : List Field) : List.Forall₂ R fs (editFirst edit tag fs) := by
  induction fs with
  | nil => exact .nil
  | cons f fs ih =>
    rw [editFirst]
    split
    · next htag => exact .cons (hedit f htag) (List.forall₂_same.2 fun g _ => hrefl g)
    · exact .cons (hrefl f) ih

theorem forall₂_editRun (hrefl : ∀ f, R f f) (hedit : ∀ f, R f (edit f)) (r : Record) (tag : Tag) :
    List.Forall₂ R r.fields (r.editRun tag edit) := by
  have hbeside (fs : List Field) : List.Forall₂ R fs fs := List.forall₂_same.2 fun f _ => hrefl f
  have hrun : List.Forall₂ R (r.fieldsWithTag tag) ((r.fieldsWithTag tag).map edit) :=
    List.forall₂_map_right_iff.2 (List.forall₂_same.2 fun f _ => hedit f)
  have hparts : List.Forall₂ R (r.fields.take (r.tagSpan tag).start ++ r.fieldsWithTag tag ++
      r.fields.drop (r.tagSpan tag).stop) (r.editRun tag edit) :=
    List.rel_append (List.rel_append (hbeside _) hrun) (hbeside _)
  rwa [append_fieldsWithTag] at hparts

/-- A subfield is added to a data field or to none. -/
theorem forall₂_addSubfield (r : Record) (tag : Tag) (code : Char) (value : String) :
    List.Forall₂ Field.Spared r.fields ((r.addSubfield tag code value).getD r).fields := by
  have hsame : List.Forall₂ Field.Spared r.fields r.fields :=
    List.forall₂_same.2 fun f _ => Field.Spared.refl f
  unfold addSubfield
  split
  · exact hsame
  · next hdata =>
    cases r.firstField? tag with
    | none => exact hsame
    | some first =>
      refine forall₂_editFirst Field.Spared.refl (fun f htag => ?_) r.fields
      refine ⟨rfl, fun hcontrol => ?_⟩
      rw [Field.isControl, htag] at hcontrol
      exact absurd hcontrol hdata

theorem forall₂_deleteSubfields (r : Record) (tag : Tag) (code : Char) :
    List.Forall₂ Field.Spared r.fields (r.deleteSubfields tag code).fields :=
  forall₂_editRun Field.Spared.refl
    (fun f => ⟨tag_deleteSubfields code f, fun h => Field.deleteSubfields_of_isControl h code⟩) r tag

/-- The fields of a control tag are all left as they are. -/
theorem fields_deleteSubfields_of_isControl {tag : Tag} (h : tag.isControl = true) (r : Record)
    (code : Char) : (r.deleteSubfields tag code).fields = r.fields := by
  have hrun : (r.fieldsWithTag tag).map (fun f => f.deleteSubfields code) = r.fieldsWithTag tag := by
    rw [List.map_congr_left (g := id), List.map_id]
    intro f hf
    have htag : f.tag = tag := r.tag_eq_of_mem_fieldsWithTag tag f hf
    exact Field.deleteSubfields_of_isControl (by rw [Field.isControl, htag, h]) code
  rw [deleteSubfields, ofParts, editRun, hrun]
  exact append_fieldsWithTag r tag

end Record

/-! ## Main result -/

/-- **Edits of subfields and control fields.** Adding a subfield to a record, and deleting those with a code
from a record or a field, leaves every control field as it is. Putting a value under a code in a field does
not. Only contents that hold the value under the code can come through: plain text keeps its first two
characters and loses all others, and with a code and a value that read as one subfield, contents come through
exactly if they are two indicators and subfields, the first of which with the code has the value already. -/
theorem subfieldEdits_spare (tag : Tag) (code : Char) (value : String) :
    (∀ f : Field, f.isControl = true → f.deleteSubfields code = f) ∧
    (∀ r : Record, List.Forall₂ Field.Spared r.fields ((r.addSubfield tag code value).getD r).fields ∧
      List.Forall₂ Field.Spared r.fields (r.deleteSubfields tag code).fields ∧
      (tag.isControl = true → r.addSubfield tag code value = none ∧
        (r.deleteSubfields tag code).fields = r.fields)) ∧
    ∀ f : Field,
      ((f.insertOrReplace code value).contents = f.contents →
        Subfield.encode ⟨code, value⟩ <:+: f.contents.toList.drop 2) ∧
      (delimiter ∉ f.contents.toList →
        (f.insertOrReplace code value).contents.toList =
            f.indicator1?.getD ' ' :: f.indicator2?.getD ' ' :: Subfield.encode ⟨code, value⟩ ∧
          (f.insertOrReplace code value).contents ≠ f.contents) ∧
      (Subfield.Clean ⟨code, value⟩ → ((f.insertOrReplace code value).contents = f.contents ↔
        (∃ i j, f.contents.toList = i :: j :: f.subfields.encode) ∧
          f.subfields.first? code = some value)) := by
  refine ⟨fun f h => Field.deleteSubfields_of_isControl h code, fun r => ⟨?_, ?_, ?_⟩, fun f => ⟨?_, ?_, ?_⟩⟩
  · exact Record.forall₂_addSubfield r tag code value
  · exact Record.forall₂_deleteSubfields r tag code
  · intro h
    exact ⟨if_pos h, Record.fields_deleteSubfields_of_isControl h r code⟩
  · exact Field.encode_infix_of_contents_eq
  · intro hplain
    have hput : (f.insertOrReplace code value).contents.toList =
        f.indicator1?.getD ' ' :: f.indicator2?.getD ' ' :: Subfield.encode ⟨code, value⟩ :=
      Field.contents_insertOrReplace_of_plain hplain
    refine ⟨hput, fun hsame => hplain ?_⟩
    rw [← hsame, hput, Subfield.encode]
    simp
  · exact Field.contents_insertOrReplace_eq_iff

/-- A control number loses its end to a value that is put into it, and it keeps what only looks like one. -/
theorem subfieldEdits_spare_number :
    let number : Field := ⟨Tag.controlNumber, "abc123"⟩
    let odd : Field := ⟨Tag.controlNumber, "12\x1Fax"⟩
    let r := Record.ofParts (Leader.fresh .languageMaterial .monographOrItem) [number]
    (number.isControl = true ∧ number.deleteSubfields 'a' = number) ∧
      (Tag.controlNumber.isControl = true ∧ r.addSubfield Tag.controlNumber 'a' "x" = none) ∧
      (delimiter ∉ number.contents.toList ∧
        (number.insertOrReplace 'a' "x").contents.toList = ['a', 'b', delimiter, 'a', 'x']) ∧
      (Subfield.Clean ⟨'a', "x"⟩ ∧ (odd.insertOrReplace 'a' "x").contents = odd.contents) := by
  intro number odd r
  obtain ⟨hdelete, hrecord, hput⟩ := subfieldEdits_spare Tag.controlNumber 'a' "x"
  have hcontrol : number.isControl = true := by decide
  have hplain : delimiter ∉ number.contents.toList := by decide
  have hclean : Subfield.Clean ⟨'a', "x"⟩ := ⟨by decide, by decide⟩
  refine ⟨⟨hcontrol, hdelete number hcontrol⟩, ⟨by decide, ?_⟩, ⟨hplain, ?_⟩, ⟨hclean, ?_⟩⟩
  · exact ((hrecord r).2.2 (by decide)).1
  · exact ((hput number).2.1 hplain).1.trans (by decide)
  · exact ((hput odd).2.2 hclean).2 ⟨⟨'1', '2', by decide⟩, by decide⟩

/-- Not every edit of subfields leaves control fields alone. -/
theorem insertOrReplace_cuts_number : ¬∀ (f : Field) (code : Char) (value : String), f.isControl = true →
    (f.insertOrReplace code value).contents = f.contents := by
  intro h
  have hsame := h ⟨Tag.controlNumber, "abc123"⟩ 'a' "x" (by decide)
  exact absurd hsame (by decide +kernel)

end Marc21
