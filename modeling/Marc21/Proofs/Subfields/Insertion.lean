import Marc21.Proofs.Field.Editing
import Marc21.Proofs.Record.Assembly

/-!
Subfields that are added where their codes belong. The place is found by halving, and in a list in order that is the
place behind all codes that are not greater (`addBehind_eq`). So subfields that are added one after the other come to
a stable sort by code (`addAll_add`), and each of them leaves those that were there in order (`addAll_sorted`).
-/

namespace Marc21.Subfields

/-- Addition of a subfield behind those whose codes are not greater, by going through the codes from the first one
on. -/
def addBehind (ss : Subfields) (code : Char) (value : String) : Subfields :=
  ss.takeWhile (·.code ≤ code) ++ ⟨code, value⟩ :: ss.dropWhile (·.code ≤ code)

/-- The list after additions, one after the other. -/
def addAll (addition : Subfields → Char → String → Subfields) (ss added : Subfields) : Subfields :=
  added.foldl (fun ss s => addition ss s.code s.value) ss

variable {ss : Subfields}

/-- Halving finds the place to which going through the codes leads. -/
theorem addBehind_eq (h : InOrder Subfield.code ss) (code : Char) (value : String) :
    ss.addBehind code value = ss.add code value :=
  (insertByKey_bisect Subfield.code h ⟨code, value⟩).symm

theorem inOrder_add (h : InOrder Subfield.code ss) (code : Char) (value : String) :
    InOrder Subfield.code (ss.add code value) := by
  rw [← addBehind_eq h]
  exact inOrder_insertByKey Subfield.code h ⟨code, value⟩

/-- Each addition finds the list in order, so it makes no difference to any of them how the place is found. -/
theorem addAll_addBehind (h : InOrder Subfield.code ss) (added : Subfields) :
    addAll addBehind ss added = addAll add ss added := by
  induction added generalizing ss with
  | nil => rfl
  | cons s added ih =>
    rw [addAll, List.foldl_cons, addBehind_eq h]
    exact ih (inOrder_add h s.code s.value)

/-- Additions to a list in order come to a stable sort of what was there and what is added. -/
theorem addAll_add (h : InOrder Subfield.code ss) (added : Subfields) :
    addAll add ss added = sortByKey Subfield.code (ss ++ added) := by
  rw [← addAll_addBehind h]
  exact foldl_insertByKey Subfield.code h added

/-! ## Main result -/

/-- **Adding subfields one by one is a stable sort.** Subfields that are added to an empty list, one after the other,
come to the stable sort of all of them by code: the codes do not fall, and the subfields of one code stand as they were
added. Whenever a list is in order, a subfield that is added comes in behind all codes that are not greater and in front
of all others, which stand as they stood, so the list is in order again. The place that halving finds is the one to
which going through the codes leads. -/
theorem addAll_sorted :
    (∀ added : Subfields, let ss := addAll add [] added
      ss = added.mergeSort (fun s t => s.code ≤ t.code) ∧ ss.Pairwise (fun s t => s.code ≤ t.code) ∧
      (∀ code, ss.filter (·.code = code) = added.filter (·.code = code)) ∧ addAll addBehind [] added = ss) ∧
    ∀ ss : Subfields, ss.Pairwise (fun s t => s.code ≤ t.code) → ∀ code value,
      ss.addBehind code value = ss.add code value ∧
      (ss.add code value).Pairwise (fun s t => s.code ≤ t.code) ∧
      ∃ before after, ss = before ++ after ∧ ss.add code value = before ++ ⟨code, value⟩ :: after ∧
        (∀ s ∈ before, s.code ≤ code) ∧ ∀ s ∈ after, code < s.code := by
  constructor
  · intro added ss
    have hempty : InOrder Subfield.code [] := List.Pairwise.nil
    have hsort : ss = sortByKey Subfield.code added := addAll_add hempty added
    refine ⟨hsort, ?_, fun code => ?_, addAll_addBehind hempty added⟩
    · rw [hsort]
      exact inOrder_sortByKey Subfield.code added
    · rw [hsort]
      exact ofKey_sortByKey Subfield.code code added
  · intro ss h code value
    exact ⟨addBehind_eq h code value, inOrder_add h code value, add_split h code value⟩

/-- A second author comes in between the first one and the title of the work. -/
theorem addAll_sorted_author :
    let ss : Subfields := [⟨'a', "First"⟩, ⟨'t', "Work"⟩, ⟨'t', "Part"⟩]
    ss.Pairwise (fun s t => s.code ≤ t.code) ∧
      ss.add 'a' "Second" = [⟨'a', "First"⟩, ⟨'a', "Second"⟩, ⟨'t', "Work"⟩, ⟨'t', "Part"⟩] ∧
      (ss.add 'a' "Second").Pairwise fun s t => s.code ≤ t.code := by
  intro ss
  have hsorted : ss.Pairwise fun s t => s.code ≤ t.code := by simp [ss]
  obtain ⟨hbehind, hadded, _⟩ := addAll_sorted.2 ss hsorted 'a' "Second"
  exact ⟨hsorted, hbehind.symm.trans (by decide), hadded⟩

end Marc21.Subfields
