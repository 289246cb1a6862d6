import Mathlib.Data.List.Basic
import Mathlib.Order.Lattice

/-!
Stable sorts. A list in which the keys do not fall is determined by what it holds of each key (`eq_of_inOrder`), and a
merge sort leaves what there is of a key as it was (`ofKey_sortByKey`). So the sort is the one list in order that holds
the same of each key (`sortByKey_eq_iff`). Elements that are put in one by one, each behind those with no greater key,
come to that sort too (`foldl_insertByKey`).
-/

namespace Marc21

/-- In a list in which the elements with a property come first, none is left when they are dropped. -/
theorem eq_false_of_mem_dropWhile {α : Type} {p : α → Bool} {xs : List α}
    (h : xs.Pairwise fun x y => p y = true → p x = true) : ∀ y ∈ xs.dropWhile p, p y = false := by
  induction xs with
  | nil => simp
  | cons x xs ih =>
    obtain ⟨hx, hxs⟩ := List.pairwise_cons.1 h
    cases hp : p x with
    | true =>
      rw [List.dropWhile_cons_of_pos hp]
      exact ih hxs
    | false =>
      rw [List.dropWhile_cons_of_neg (by simp [hp]), List.forall_mem_cons]
      exact ⟨hp, fun y hy => Bool.eq_false_iff.2 fun hpy => by simp [hx y hy hpy] at hp⟩

section

variable {α κ : Type} [LinearOrder κ] (key : α → κ)

/-- The keys do not fall. -/
def InOrder (xs : List α) : Prop := xs.Pairwise fun x y => key x ≤ key y

/-- The elements of one key, in the order in which they stand. -/
def ofKey (k : κ) (xs : List α) : List α := xs.filter fun x => key x = k

def sortByKey (xs : List α) : List α := xs.mergeSort fun x y => key x ≤ key y

/-- Puts an element behind those whose keys are not greater. -/
def insertByKey (x : α) (xs : List α) : List α :=
  xs.takeWhile (key · ≤ key x) ++ x :: xs.dropWhile (key · ≤ key x)

theorem ofKey_append (k : κ) (xs ys : List α) : ofKey key k (xs ++ ys) = ofKey key k xs ++ ofKey key k ys :=
  List.filter_append ..

theorem inOrder_cons {x : α} {xs : List α} :
    InOrder key (x :: xs) ↔ (∀ y ∈ xs, key x ≤ key y) ∧ InOrder key xs := List.pairwise_cons

/-! ## What determines a list in order -/

private theorem ofKey_head {x y : α} {xs ys : List α} (hx : InOrder key (x :: xs))
    (h : ∀ k, ofKey key k (x :: xs) = ofKey key k (y :: ys)) : key x ≤ key y := by
  have hmem : y ∈ ofKey key (key y) (x :: xs) := by
    rw [h (key y)]
    simp [ofKey]
  rcases List.mem_cons.1 (List.mem_filter.1 hmem).1 with rfl | hy
  · exact le_refl _
  · exact ((inOrder_cons key).1 hx).1 y hy

/-- A list in order is determined by what it holds of each key. -/
theorem eq_of_inOrder {xs ys : List α} (hx : InOrder key xs) (hy : InOrder key ys)
    (h : ∀ k, ofKey key k xs = ofKey key k ys) : xs = ys := by
  induction xs generalizing ys with
  | nil =>
    cases ys with
    | nil => rfl
    | cons y ys =>
      have := h (key y)
      simp [ofKey] at this
  | cons x xs ih =>
    cases ys with
    | nil =>
      have := h (key x)
      simp [ofKey] at this
    | cons y ys =>
      have hkey : key x = key y := le_antisymm (ofKey_head key hx h) (ofKey_head key hy fun k => (h k).symm)
      -- Both heads come first among the elements of their key.
      obtain rfl : x = y := by
        have hk := h (key x)
        simp only [ofKey, List.filter_cons, hkey, decide_true, if_true] at hk
        exact (List.cons.inj hk).1
      have htail : ∀ k, ofKey key k xs = ofKey key k ys := by
        intro k
        have hk := h k
        by_cases hxk : key x = k
        · simp only [ofKey, List.filter_cons, hxk, decide_true, if_true] at hk
          exact (List.cons.inj hk).2
        · simpa only [ofKey, List.filter_cons, hxk, decide_false, Bool.false_eq_true, if_false] using hk
      rw [ih ((inOrder_cons key).1 hx).2 ((inOrder_cons key).1 hy).2 htail]

/-! ## The sort -/

private theorem decide_le_trans (x y z : α) (hxy : decide (key x ≤ key y) = true)
    (hyz : decide (key y ≤ key z) = true) : decide (key x ≤ key z) = true :=
  decide_eq_true (le_trans (of_decide_eq_true hxy) (of_decide_eq_true hyz))

private theorem decide_le_total (x y : α) : (decide (key x ≤ key y) || decide (key y ≤ key x)) = true := by
  simpa using le_total (key x) (key y)

theorem sortByKey_perm (xs : List α) : (sortByKey key xs).Perm xs := List.mergeSort_perm xs _

theorem inOrder_sortByKey (xs : List α) : InOrder key (sortByKey key xs) :=
  (List.pairwise_mergeSort (decide_le_trans key) (decide_le_total key) xs).imp of_decide_eq_true

/-- The sort is stable: what it holds of a key is what there was, in the same order. -/
theorem ofKey_sortByKey (k : κ) (xs : List α) : ofKey key k (sortByKey key xs) = ofKey key k xs := by
  have hkept : (ofKey key k xs).Sublist (sortByKey key xs) := by
    apply List.sublist_mergeSort (decide_le_trans key) (decide_le_total key)
    · apply List.Pairwise.imp_of_mem _ (List.pairwise_of_forall fun _ _ => trivial)
      intro x y hx hy _
      have hxk : key x = k := of_decide_eq_true (List.mem_filter.1 hx).2
      have hyk : key y = k := of_decide_eq_true (List.mem_filter.1 hy).2
      exact decide_eq_true (le_of_eq (hxk.trans hyk.symm))
    · exact List.filter_sublist
  have hsub : (ofKey key k xs).Sublist (ofKey key k (sortByKey key xs)) := by
    have := hkept.filter fun x => key x = k
    simpa only [ofKey, List.filter_filter, Bool.and_self] using this
  exact (hsub.eq_of_length ((sortByKey_perm key xs).filter _).length_eq.symm).symm

/-- The sort is the one list in order that holds the same of each key. -/
theorem sortByKey_eq_iff {xs ys : List α} :
    sortByKey key xs = ys ↔ InOrder key ys ∧ ∀ k, ofKey key k ys = ofKey key k xs := by
  constructor
  · rintro rfl
    exact ⟨inOrder_sortByKey key xs, fun k => ofKey_sortByKey key k xs⟩
  · rintro ⟨hy, hk⟩
    exact eq_of_inOrder key (inOrder_sortByKey key xs) hy fun k => (ofKey_sortByKey key k xs).trans (hk k).symm

theorem sortByKey_append_left (xs ys : List α) :
    sortByKey key (sortByKey key xs ++ ys) = sortByKey key (xs ++ ys) := by
  rw [sortByKey_eq_iff]
  refine ⟨inOrder_sortByKey key _, fun k => ?_⟩
  rw [ofKey_sortByKey, ofKey_append, ofKey_append, ofKey_sortByKey]

/-! ## Insertion -/

/-- An element comes behind those whose keys are not greater, and if the list is in order, in front of all others. -/
theorem insertByKey_split (x : α) (xs : List α) : ∃ front behind,
    xs = front ++ behind ∧ insertByKey key x xs = front ++ x :: behind ∧ (∀ y ∈ front, key y ≤ key x) ∧
      (InOrder key xs → ∀ y ∈ behind, key x < key y) := by
  refine ⟨xs.takeWhile (key · ≤ key x), xs.dropWhile (key · ≤ key x), List.takeWhile_append_dropWhile.symm, rfl,
    fun y hy => ?_, fun h y hy => ?_⟩
  · simpa using List.all_eq_true.1 List.all_takeWhile y hy
  · have hdown : xs.Pairwise fun y z => decide (key z ≤ key x) = true → decide (key y ≤ key x) = true :=
      h.imp fun hle hz => decide_eq_true (le_trans hle (of_decide_eq_true hz))
    exact not_le.1 (of_decide_eq_false (eq_false_of_mem_dropWhile hdown y hy))

/-- What is put into a list in order stands where a stable sort would put it. -/
theorem insertByKey_eq_sortByKey {xs : List α} (h : InOrder key xs) (x : α) :
    insertByKey key x xs = sortByKey key (xs ++ [x]) := by
  obtain ⟨front, behind, hxs, hinserted, hfront, hbehind⟩ := insertByKey_split key x xs
  have hbehind := hbehind h
  rw [hxs] at h
  obtain ⟨hf, hb, hacross⟩ := List.pairwise_append.1 h
  symm
  rw [sortByKey_eq_iff, hinserted]
  refine ⟨List.pairwise_append.2 ⟨hf, (inOrder_cons key).2 ⟨fun y hy => le_of_lt (hbehind y hy), hb⟩, ?_⟩, fun k => ?_⟩
  · intro y hy
    exact List.forall_mem_cons.2 ⟨hfront y hy, hacross y hy⟩
  · -- The elements behind the new one are of other keys.
    have hapart : ofKey key k behind = [] ∨ ofKey key k [x] = [] := by
      by_cases hk : key x = k
      · refine .inl (List.filter_eq_nil_iff.2 fun y hy hyk => ?_)
        exact absurd (hk.trans (of_decide_eq_true hyk).symm) (ne_of_lt (hbehind y hy))
      · exact .inr (by simp [ofKey, hk])
    rw [hxs, ← List.singleton_append]
    simp only [ofKey_append]
    rcases hapart with hnone | hnone
    · simp [hnone]
    · simp [hnone]

theorem inOrder_insertByKey {xs : List α} (h : InOrder key xs) (x : α) : InOrder key (insertByKey key x xs) :=
  insertByKey_eq_sortByKey key h x ▸ inOrder_sortByKey key _

/-- Elements that are put in one by one come to a stable sort of all. -/
theorem foldl_insertByKey {xs : List α} (h : InOrder key xs) (ys : List α) :
    ys.foldl (fun xs y => insertByKey key y xs) xs = sortByKey key (xs ++ ys) := by
  induction ys generalizing xs with
  | nil =>
    symm
    rw [List.foldl_nil, List.append_nil, sortByKey_eq_iff]
    exact ⟨h, fun _ => rfl⟩
  | cons y ys ih =>
    rw [List.foldl_cons, ih (inOrder_insertByKey key h y), insertByKey_eq_sortByKey key h, sortByKey_append_left,
      List.append_assoc, List.singleton_append]

end

end Marc21
