import Marc21.Proofs.Record.Change
import Marc21.Proofs.Record.Deletion

/-!
Deleting fields one at a time. The indices are those of the fields as they were. They are put in order and rid
of repetitions (`pairwise_eraseReps`, `mem_eraseReps`), and the last one goes first, so when it is the turn of an
index, all fields up to it are still where they were (`fieldsAt_deleteField`). What is left are the fields at all
other indices (`deleteFields_eq`), so only the set of the indices counts.
-/

namespace Marc21

/-! ## Indices from the last one on -/

section

variable {α : Type} [BEq α]

private theorem eraseReps_loop (x : α) (xs done : List α) :
    List.eraseRepsBy.loop (· == ·) x xs done = done.reverse ++ List.eraseRepsBy.loop (· == ·) x xs [] := by
  induction xs generalizing x done with
  | nil => simp [List.eraseRepsBy.loop]
  | cons y xs ih =>
    rw [List.eraseRepsBy.loop, List.eraseRepsBy.loop]
    split
    · exact ih x done
    · rw [ih y (x :: done), ih y [x]]
      simp

/-- An element goes if it is the same as the one before. -/
theorem eraseReps_cons_cons (x y : α) (xs : List α) : (x :: y :: xs).eraseReps =
    if x == y then (x :: xs).eraseReps else x :: (y :: xs).eraseReps := by
  simp only [List.eraseReps, List.eraseRepsBy]
  rw [List.eraseRepsBy.loop]
  split
  · next h => rw [if_pos h]
  · next h => rw [if_neg (by simp [h]), eraseReps_loop]; rfl

theorem mem_eraseReps [LawfulBEq α] {x : α} {xs : List α} : x ∈ xs.eraseReps ↔ x ∈ xs := by
  cases xs with
  | nil => exact Iff.rfl
  | cons y xs =>
    induction xs generalizing y with
    | nil => exact Iff.rfl
    | cons z xs ih =>
      rw [eraseReps_cons_cons]
      split
      · next h =>
        rw [ih, eq_of_beq h]
        simp
      · rw [List.mem_cons, ih, ← List.mem_cons]

end

/-- Without repetitions, indices that do not rise fall. -/
theorem pairwise_eraseReps {indices : List Nat} (h : indices.Pairwise (· ≥ ·)) :
    indices.eraseReps.Pairwise (· > ·) := by
  cases indices with
  | nil => exact .nil
  | cons i indices =>
    induction indices generalizing i with
    | nil => exact List.pairwise_singleton _ _
    | cons j indices ih =>
      obtain ⟨hi, hrest⟩ := List.pairwise_cons.1 h
      rw [eraseReps_cons_cons]
      split
      · next heq =>
        rw [eq_of_beq heq]
        exact ih j hrest
      · next hne =>
        have hlt : j < i := Nat.lt_of_le_of_ne (hi j List.mem_cons_self) fun heq => hne (by simp [heq])
        refine List.pairwise_cons.2 ⟨fun k hk => ?_, ih j hrest⟩
        rw [mem_eraseReps, List.mem_cons] at hk
        rcases hk with rfl | hk
        · exact hlt
        · exact Nat.lt_of_le_of_lt ((List.pairwise_cons.1 hrest).1 k hk) hlt

namespace Record

variable {r : Record} {indices : List Nat}

/-- The order in which fields are deleted: each index once, the last one first. -/
def fromLast (indices : List Nat) : List Nat := (indices.mergeSort fun i j => j ≤ i).eraseReps

theorem pairwise_fromLast (indices : List Nat) : (fromLast indices).Pairwise (· > ·) := by
  apply pairwise_eraseReps
  have h : (indices.mergeSort fun i j => j ≤ i).Pairwise fun i j => decide (j ≤ i) = true :=
    List.pairwise_mergeSort (fun i j k hij hjk => by simp only [decide_eq_true_eq] at *; omega)
      (fun i j => by simp only [Bool.or_eq_true, decide_eq_true_eq]; omega) indices
  exact h.imp of_decide_eq_true

theorem mem_fromLast {i : Nat} : i ∈ fromLast indices ↔ i ∈ indices := by
  rw [fromLast, mem_eraseReps, List.mem_mergeSort]

/-! ## What is left -/

/-- A field goes behind which others went already. -/
theorem fieldsAt_deleteField {i : Nat} (h : ∀ j ∈ indices, j < i) (r : Record) :
    fieldsAt (· ∉ indices) 0 (r.deleteField i).fields = fieldsAt (· ∉ i :: indices) 0 r.fields := by
  have hfront {fs : List Field} (hlength : fs.length ≤ i) :
      fieldsAt (· ∉ indices) 0 fs = fieldsAt (· ∉ i :: indices) 0 fs := by
    refine fieldsAt_congr fun j _ hj => ?_
    rw [List.mem_cons, not_or]
    exact ⟨fun hnot => ⟨by omega, hnot⟩, And.right⟩
  unfold deleteField
  split
  · next f hf =>
    obtain ⟨hlt, rfl⟩ := List.getElem?_eq_some_iff.1 hf
    have hlength : (r.fields.take i).length = i := List.length_take_of_le (Nat.le_of_lt hlt)
    -- All of what stands behind the field is left, wherever it comes to stand.
    have hbehind : fieldsAt (· ∉ indices) i (r.fields.drop (i + 1)) = r.fields.drop (i + 1) :=
      fieldsAt_of_forall fun j hj _ hmem => absurd (h j hmem) (by omega)
    have hrest : fieldsAt (· ∉ i :: indices) (i + 1) (r.fields.drop (i + 1)) = r.fields.drop (i + 1) := by
      refine fieldsAt_of_forall fun j hj _ hmem => ?_
      rcases List.mem_cons.1 hmem with rfl | hmem
      · omega
      · exact absurd (h j hmem) (by omega)
    have hgone : fieldsAt (· ∉ i :: indices) i [r.fields[i]] = [] := by simp [fieldsAt]
    have hsplit : r.fields = r.fields.take i ++ ([r.fields[i]] ++ r.fields.drop (i + 1)) := by
      rw [List.singleton_append, ← List.drop_eq_getElem_cons hlt, List.take_append_drop]
    calc fieldsAt (· ∉ indices) 0 (r.fields.eraseIdx i)
        = fieldsAt (· ∉ indices) 0 (r.fields.take i) ++ r.fields.drop (i + 1) := by
          rw [List.eraseIdx_eq_take_drop_succ, fieldsAt_append, hlength, Nat.zero_add, hbehind]
      _ = fieldsAt (· ∉ i :: indices) 0 (r.fields.take i ++ ([r.fields[i]] ++ r.fields.drop (i + 1))) := by
          rw [fieldsAt_append, fieldsAt_append, hlength, Nat.zero_add, List.length_singleton, hgone, hrest,
            List.nil_append, hfront (Nat.le_of_eq hlength)]
      _ = fieldsAt (· ∉ i :: indices) 0 r.fields := by rw [← hsplit]
  · next hnone => exact hfront (List.getElem?_eq_none_iff.1 hnone)

/-- Of indices that fall, each finds its field where it was. -/
theorem fields_foldl_deleteField (h : indices.Pairwise (· > ·)) (r : Record) :
    (indices.foldl deleteField r).fields = fieldsAt (· ∉ indices) 0 r.fields := by
  induction indices generalizing r with
  | nil => exact (fieldsAt_of_forall fun i _ _ => List.not_mem_nil).symm
  | cons i indices ih =>
    obtain ⟨hi, hrest⟩ := List.pairwise_cons.1 h
    rw [List.foldl_cons, ih hrest, fieldsAt_deleteField hi]

theorem fields_deleteFields (r : Record) (indices : List Nat) :
    (r.deleteFields indices).fields = fieldsAt (· ∉ indices) 0 r.fields := by
  have hfields := fields_foldl_deleteField (pairwise_fromLast indices) r
  rw [deleteFields, ← fromLast, hfields]
  exact fieldsAt_congr fun i _ _ => not_congr mem_fromLast

/-- The leader is left alone, and the size is kept in step with the fields. -/
theorem foldl_deleteField_rest (h : r.size = exactSize r.fields) (indices : List Nat) :
    (indices.foldl deleteField r).leader = r.leader ∧
      (indices.foldl deleteField r).size = exactSize (indices.foldl deleteField r).fields := by
  induction indices generalizing r with
  | nil => exact ⟨rfl, h⟩
  | cons i indices ih =>
    have hleader : (r.deleteField i).leader = r.leader := by
      unfold deleteField
      split <;> rfl
    obtain ⟨hrest, hsize⟩ := ih (size_deleteField h i)
    exact ⟨hrest.trans hleader, hsize⟩

/-- A record with the right size is determined by its leader and its fields. -/
theorem eq_of_exactSize {s : Record} (hr : r.size = exactSize r.fields) (hs : s.size = exactSize s.fields)
    (hleader : r.leader = s.leader) (hfields : r.fields = s.fields) : r = s := by
  obtain ⟨leader, fields, size⟩ := r
  obtain ⟨leader', fields', size'⟩ := s
  obtain rfl : leader = leader' := hleader
  obtain rfl : fields = fields' := hfields
  obtain rfl : size = size' := hr.trans hs.symm
  rfl

/-! ## Main result -/

/-- **Deleting fields deletes a set of indices.** From a record with the right size, whatever its order, nothing is ever
taken off the size that is not there. The fields that are left are those whose index is not listed, in their order, the
leader is as it was, and the size is right. Neither the order of the list counts nor how often an index stands in it,
nor one at which there is no field. -/
theorem deleteFields_eq (h : r.size = exactSize r.fields) (indices : List Nat) :
    let s := r.deleteFields indices
    r.deleteFieldsChecked indices = some s ∧ s.leader = r.leader ∧
    s.fields = fieldsAt (· ∉ indices) 0 r.fields ∧ s.size = exactSize s.fields ∧
    ∀ others : List Nat, (∀ i < r.fields.length, i ∈ indices ↔ i ∈ others) →
      r.deleteFields others = s := by
  intro s
  obtain ⟨hleader, hsize⟩ := foldl_deleteField_rest h (fromLast indices)
  refine ⟨deleteFieldsChecked_eq h indices, hleader, r.fields_deleteFields indices, hsize, fun others hothers => ?_⟩
  obtain ⟨hleader', hsize'⟩ := foldl_deleteField_rest h (fromLast others)
  refine eq_of_exactSize hsize' hsize (hleader'.trans hleader.symm) ?_
  rw [fields_deleteFields, fields_deleteFields]
  exact fieldsAt_congr fun i _ hi => not_congr (hothers i (by omega)).symm

/-- Of four fields the first and the last are left, however the others are listed. -/
theorem deleteFields_eq_listed :
    let note : Tag := { first := 0x35, second := 0x30, third := 0x30 }
    let r := ofParts (Leader.fresh .languageMaterial .monographOrItem)
      [⟨note, "A"⟩, ⟨Tag.controlNumber, "1"⟩, ⟨note, "B"⟩, ⟨note, "A"⟩]
    let s := r.deleteFields [1, 9, 2, 1]
    r.size = exactSize r.fields ∧ r.deleteFieldsChecked [1, 9, 2, 1] = some s ∧
      s.fields = [⟨note, "A"⟩, ⟨note, "A"⟩] ∧ s.size = exactSize s.fields ∧ r.deleteFields [2, 1] = s := by
  intro note r s
  obtain ⟨hchecked, _, hfields, hsize, hothers⟩ := deleteFields_eq (r := r) rfl [1, 9, 2, 1]
  exact ⟨rfl, hchecked, hfields.trans (by decide), hsize, hothers [2, 1] (by decide)⟩

end Record

end Marc21
