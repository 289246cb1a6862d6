import Mathlib.Data.Char
import Marc21.Proofs.Field.Runs

/-!
Edits of a field that is made of runs. Each of them decodes the field, changes the list of subfields, and encodes it
again, and so changes the runs as the list is changed: those with a code go (`MadeOf.deleteSubfields`), the first one
with it gets another value, or a new one comes in where its code belongs (`MadeOf.insertOrReplace_present`,
`MadeOf.insertOrReplace_absent`). All other runs and the indicators stay as they are (`edits_of_runs`).
-/

namespace Marc21

namespace Subfields

variable {ss before : Subfields} {code : Char}

/-! ## Changes to a list of subfields -/

theorem replaceFirst?_append (hbefore : ∀ s ∈ before, s.code ≠ code) {old : Subfield} (hold : old.code = code)
    (after : Subfields) (value : String) :
    replaceFirst? (before ++ old :: after) code value = some (before ++ ⟨code, value⟩ :: after) := by
  induction before with
  | nil => rw [List.nil_append, replaceFirst?, if_pos hold, List.nil_append]
  | cons s before ih =>
    obtain ⟨hs, hbefore⟩ := List.forall_mem_cons.1 hbefore
    rw [List.cons_append, replaceFirst?, if_neg hs, ih hbefore, Option.map_some, List.cons_append]

theorem replaceFirst?_of_absent (h : ∀ s ∈ ss, s.code ≠ code) (value : String) :
    ss.replaceFirst? code value = none := by
  induction ss with
  | nil => rfl
  | cons s ss ih =>
    obtain ⟨hs, hss⟩ := List.forall_mem_cons.1 h
    rw [replaceFirst?, if_neg hs, ih hss, Option.map_none]

theorem first?_append (hbefore : ∀ s ∈ before, s.code ≠ code) (value : String) (after : Subfields) :
    first? (before ++ ⟨code, value⟩ :: after) code = some value := by
  have hhere : (⟨code, value⟩ :: after : Subfields).find? (·.code == code) = some ⟨code, value⟩ :=
    List.find?_cons_of_pos (beq_self_eq_true code)
  rw [first?, List.find?_append, find?_eq_none_of_absent hbefore, Option.none_or, hhere, Option.map_some]

theorem first?_deleteAll (ss : Subfields) (code : Char) : (ss.deleteAll code).first? code = none := by
  have habsent : ∀ s ∈ ss.deleteAll code, s.code ≠ code := fun s hs => by
    simpa using (List.mem_filter.1 hs).2
  rw [first?, find?_eq_none_of_absent habsent, Option.map_none]

/-- In a list in order, a subfield is added behind those with codes that are not greater, and in front of all
others. -/
theorem add_split (h : ss.Pairwise fun s t => s.code ≤ t.code) (code : Char) (value : String) : ∃ before after,
    ss = before ++ after ∧ ss.add code value = before ++ ⟨code, value⟩ :: after ∧
      (∀ s ∈ before, s.code ≤ code) ∧ ∀ s ∈ after, code < s.code := by
  obtain ⟨before, after, hss, hinserted, hbefore, hafter⟩ := insertByKey_split Subfield.code ⟨code, value⟩ ss
  exact ⟨before, after, hss, (insertByKey_bisect Subfield.code h ⟨code, value⟩).trans hinserted, hbefore, hafter h⟩

/-- The value goes to the first subfield with the code. -/
theorem put_append (hbefore : ∀ s ∈ before, s.code ≠ code) {old : Subfield} (hold : old.code = code)
    (after : Subfields) (value : String) :
    put (before ++ old :: after) code value = before ++ ⟨code, value⟩ :: after := by
  rw [put, replaceFirst?_append hbefore hold, Option.getD_some]

theorem put_of_absent (h : ∀ s ∈ ss, s.code ≠ code) (value : String) : ss.put code value = ss.add code value := by
  rw [put, replaceFirst?_of_absent h, Option.getD_none]

/-- What has been put under a code is found there. -/
theorem first?_put (ss : Subfields) (code : Char) (value : String) : (ss.put code value).first? code = some value := by
  cases hfind : ss.find? (·.code == code) with
  | some old =>
    obtain ⟨hold, before, after, rfl, hbefore⟩ := List.find?_eq_some_iff_append.1 hfind
    have hbefore : ∀ s ∈ before, s.code ≠ code := fun s hs => by simpa using hbefore s hs
    rw [put_append hbefore (eq_of_beq hold), first?_append hbefore]
  | none =>
    have habsent : ∀ s ∈ ss, s.code ≠ code := fun s hs => by simpa using List.find?_eq_none.1 hfind s hs
    obtain ⟨before, after, hss, hadd⟩ := ss.add_append code value
    rw [put_of_absent habsent, hadd, first?_append]
    exact fun s hs => habsent s (hss ▸ List.mem_append_left after hs)

end Subfields

namespace Field

/-! ## What is found afterwards -/

theorem firstSubfield?_withSubfields (f : Field) {ss : Subfields} (h : ∀ s ∈ ss, s.Clean) (code : Char) :
    (f.withSubfields ss).firstSubfield? code = ss.first? code := by
  rw [firstSubfield?_eq, withSubfields, subfields_data _ _ _ h]

/-- What is left of a data field's subfields decodes to those that were to be left. -/
theorem subfields_deleteSubfields {f : Field} (hdata : f.isControl = false) (code : Char) :
    (f.deleteSubfields code).subfields = f.subfields.deleteAll code := by
  have hclean : ∀ s ∈ f.subfields.deleteAll code, s.Clean := fun s hs =>
    Subfields.clean_ofContents (List.mem_filter.1 hs).1
  rw [deleteSubfields, if_neg (by simp [hdata]), withSubfields, subfields_data _ _ _ hclean]

theorem firstSubfield?_deleteSubfields {f : Field} (hdata : f.isControl = false) (code : Char) :
    (f.deleteSubfields code).firstSubfield? code = none := by
  rw [firstSubfield?_eq, subfields_deleteSubfields hdata, Subfields.first?_deleteAll]

theorem firstSubfield?_insertOrReplace (f : Field) (new : Run) :
    (f.insertOrReplace new.code new.value).firstSubfield? new.code = some new.value := by
  have hclean : ∀ s ∈ f.subfields.put new.code new.value, s.Clean := by
    intro s hs
    rcases Subfields.mem_of_mem_put hs with rfl | hs
    · exact new.clean
    · exact Subfields.clean_ofContents hs
  rw [insertOrReplace_eq, firstSubfield?_withSubfields f hclean, Subfields.first?_put]

/-! ## Changes to runs -/

namespace MadeOf

variable {f : Field} {indicator1 indicator2 : Char} {runs : List Run}

theorem deleteSubfields (h : f.MadeOf indicator1 indicator2 runs) (hdata : f.isControl = false) (code : Char) :
    (f.deleteSubfields code).MadeOf indicator1 indicator2 (runs.filter (·.code ≠ code)) := by
  have hleft : f.subfields.deleteAll code = (runs.filter (·.code ≠ code)).map Run.toSubfield := by
    rw [h.subfields_eq, Subfields.deleteAll_eq, List.filter_map]
    rfl
  rw [Field.deleteSubfields, if_neg (by simp [hdata]), hleft]
  exact h.withSubfields _

theorem insertOrReplace (h : f.MadeOf indicator1 indicator2 runs) {code : Char} {value : String}
    {others : List Run} (hput : f.subfields.put code value = others.map Run.toSubfield) :
    (f.insertOrReplace code value).MadeOf indicator1 indicator2 others := by
  rw [insertOrReplace_eq, hput]
  exact h.withSubfields others

/-- The value goes into the first run with the code. -/
theorem insertOrReplace_present (h : f.MadeOf indicator1 indicator2 runs) (new : Run)
    (hpresent : ∃ r ∈ runs, r.code = new.code) : ∃ before old after, runs = before ++ old :: after ∧
      (∀ r ∈ before, r.code ≠ new.code) ∧ old.code = new.code ∧
      (f.insertOrReplace new.code new.value).MadeOf indicator1 indicator2 (before ++ new :: after) := by
  have hsome : (runs.find? (·.code == new.code)).isSome = true := by
    rw [List.find?_isSome]
    exact hpresent.imp fun r hr => ⟨hr.1, beq_iff_eq.2 hr.2⟩
  obtain ⟨old, hfind⟩ := Option.isSome_iff_exists.1 hsome
  obtain ⟨hold, before, after, rfl, hbefore⟩ := List.find?_eq_some_iff_append.1 hfind
  have hbefore : ∀ r ∈ before, r.code ≠ new.code := fun r hr => by simpa using hbefore r hr
  refine ⟨before, old, after, rfl, hbefore, eq_of_beq hold, h.insertOrReplace ?_⟩
  rw [h.subfields_eq, List.map_append, List.map_cons, Subfields.put_append _ (eq_of_beq hold),
    List.map_append, List.map_cons]
  rw [List.forall_mem_map]
  exact hbefore

/-- If the codes are in order and the new one is not among them, its run goes between the smaller and the greater. -/
theorem insertOrReplace_absent (h : f.MadeOf indicator1 indicator2 runs) (new : Run)
    (habsent : ∀ r ∈ runs, r.code ≠ new.code) (hsorted : runs.Pairwise fun r s => r.code ≤ s.code) :
    ∃ before after, runs = before ++ after ∧ (∀ r ∈ before, r.code < new.code) ∧
      (∀ r ∈ after, new.code < r.code) ∧
      (f.insertOrReplace new.code new.value).MadeOf indicator1 indicator2 (before ++ new :: after) := by
  have hcodes : ∀ s ∈ f.subfields, s.code ≠ new.code := by
    rw [h.subfields_eq, List.forall_mem_map]
    exact habsent
  have hcodesSorted : f.subfields.Pairwise fun s t => s.code ≤ t.code := by
    rw [h.subfields_eq]
    exact List.pairwise_map.2 hsorted
  obtain ⟨before, after, hss, hadd, hbefore, hafter⟩ := Subfields.add_split hcodesSorted new.code new.value
  rw [h.subfields_eq] at hss
  obtain ⟨before, after, rfl, rfl, rfl⟩ := List.map_eq_append_iff.1 hss
  rw [List.forall_mem_map] at hbefore hafter
  refine ⟨before, after, rfl, fun r hr => ?_, hafter, h.insertOrReplace ?_⟩
  · exact lt_of_le_of_ne (hbefore r hr) (habsent r (List.mem_append_left after hr))
  · rw [Subfields.put_of_absent hcodes, hadd, List.map_append, List.map_cons]

end MadeOf

/-! ## Main result -/

/-- **Edits keep what they are not asked to change.** In a data field that is made of indicators and runs, deleting
the subfields with a code takes out their runs and leaves the others as they stand. Putting a value under a code
changes the value of the first run that has the code. If none has it and the codes are in order, a run comes in behind
all smaller codes and in front of all greater ones. Afterwards nothing is found under the code that has been deleted,
and the value under the code where it has been put. -/
theorem edits_of_runs {f : Field} (hdata : f.isControl = false) {indicator1 indicator2 : Char} {runs : List Run}
    (h : f.MadeOf indicator1 indicator2 runs) (new : Run) :
    let deleted := f.deleteSubfields new.code
    let edited := f.insertOrReplace new.code new.value
    (deleted.tag = f.tag ∧ deleted.MadeOf indicator1 indicator2 (runs.filter (·.code ≠ new.code)) ∧
      deleted.firstSubfield? new.code = none) ∧
    (edited.tag = f.tag ∧ edited.firstSubfield? new.code = some new.value) ∧
    ((∃ r ∈ runs, r.code = new.code) → ∃ before old after, runs = before ++ old :: after ∧
      (∀ r ∈ before, r.code ≠ new.code) ∧ old.code = new.code ∧
      edited.MadeOf indicator1 indicator2 (before ++ new :: after)) ∧
    ((∀ r ∈ runs, r.code ≠ new.code) → runs.Pairwise (fun r s => r.code ≤ s.code) →
      ∃ before after, runs = before ++ after ∧ (∀ r ∈ before, r.code < new.code) ∧
        (∀ r ∈ after, new.code < r.code) ∧ edited.MadeOf indicator1 indicator2 (before ++ new :: after)) := by
  refine ⟨⟨Record.tag_deleteSubfields new.code f, h.deleteSubfields hdata new.code, ?_⟩,
    ⟨rfl, f.firstSubfield?_insertOrReplace new⟩, h.insertOrReplace_present new, h.insertOrReplace_absent new⟩
  exact firstSubfield?_deleteSubfields hdata new.code

/-- A title is replaced, and a part of it comes in between it and the author. -/
theorem edits_of_runs_title :
    let f : Field := ⟨Tag.titleStatement, "14\x1FaThe title\x1FcSomeone"⟩
    let title : Run := ⟨⟨'a', "The title"⟩, ⟨by decide, by decide⟩⟩
    let author : Run := ⟨⟨'c', "Someone"⟩, ⟨by decide, by decide⟩⟩
    let other : Run := ⟨⟨'a', "A title"⟩, ⟨by decide, by decide⟩⟩
    let part : Run := ⟨⟨'b', "Part one"⟩, ⟨by decide, by decide⟩⟩
    f.isControl = false ∧ f.MadeOf '1' '4' [title, author] ∧
    ((f.deleteSubfields 'a').MadeOf '1' '4' [author] ∧ (f.deleteSubfields 'a').firstSubfield? 'a' = none) ∧
    ((∃ r ∈ [title, author], r.code = 'a') ∧ ∃ before old after, [title, author] = before ++ old :: after ∧
      (∀ r ∈ before, r.code ≠ 'a') ∧ old.code = 'a' ∧
      (f.insertOrReplace 'a' "A title").MadeOf '1' '4' (before ++ other :: after)) ∧
    (∀ r ∈ [title, author], r.code ≠ 'b') ∧ [title, author].Pairwise (fun r s => r.code ≤ s.code) ∧
    ∃ before after, [title, author] = before ++ after ∧ (∀ r ∈ before, r.code < 'b') ∧
      (∀ r ∈ after, 'b' < r.code) ∧ (f.insertOrReplace 'b' "Part one").MadeOf '1' '4' (before ++ part :: after) := by
  intro f title author other part
  have hdata : f.isControl = false := by decide
  have hruns : f.MadeOf '1' '4' [title, author] := by
    unfold MadeOf
    decide
  have hpresent : ∃ r ∈ [title, author], r.code = 'a' := ⟨title, List.mem_cons_self, rfl⟩
  have habsent : ∀ r ∈ [title, author], r.code ≠ 'b' := by simp [title, author]
  have hsorted : [title, author].Pairwise fun r s => r.code ≤ s.code := by simp [title, author]
  obtain ⟨⟨_, hdeleted, hnone⟩, _, hreplaced, _⟩ := edits_of_runs hdata hruns other
  obtain ⟨_, _, _, hadded⟩ := edits_of_runs hdata hruns part
  exact ⟨hdata, hruns, ⟨hdeleted, hnone⟩, ⟨hpresent, hreplaced hpresent⟩, habsent, hsorted,
    hadded habsent hsorted⟩

end Field

end Marc21
