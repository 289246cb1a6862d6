import Mathlib.Algebra.GroupWithZero.Nat
import Mathlib.Data.Nat.Basic
import Marc21.Proofs.StableSort
import Marc21.Record.Basic

/-!
Record order, and what a stable sort makes of it. The sort is the one list of fields in order that holds the same
of each rank (`sortFields_eq_iff`), so sorting a part first does not show in the sort of the whole
(`sortFields_append_left`, `sortFields_append_right`).
-/

namespace Marc21

/-- Fields in record order: `001` first, then by tag. -/
def Ordered (fs : List Field) : Prop := fs.Pairwise fun f g => f.rank ≤ g.rank

/-- The fields of one rank, in the order in which they stand. -/
def ofRank (k : Nat) (fs : List Field) : List Field := fs.filter fun f => f.rank = k

@[simp] theorem ofRank_append (k : Nat) (fs gs : List Field) :
    ofRank k (fs ++ gs) = ofRank k fs ++ ofRank k gs := List.filter_append ..

theorem rank_eq_zero_iff {f : Field} : f.rank = 0 ↔ f.tag = Tag.controlNumber := by
  unfold Field.rank
  split <;> simp_all

theorem rank_eq_iff {f g : Field} : f.rank = g.rank ↔ f.tag = g.tag := by
  constructor
  · intro h
    unfold Field.rank at h
    split at h <;> split at h
    · simp_all
    · omega
    · omega
    · exact Tag.eq_of_rank_eq (Nat.succ.inj h)
  · intro h
    simp only [Field.rank, h]

theorem ordered_nil : Ordered [] := List.Pairwise.nil

theorem ordered_cons {f : Field} {fs : List Field} :
    Ordered (f :: fs) ↔ (∀ g ∈ fs, f.rank ≤ g.rank) ∧ Ordered fs := List.pairwise_cons

theorem Ordered.sublist {fs gs : List Field} (h : Ordered gs) (hs : fs.Sublist gs) : Ordered fs :=
  List.Pairwise.sublist hs h

/-! ## The sort -/

theorem ordered_sortFields (fs : List Field) : Ordered (sortFields fs) := inOrder_sortByKey Field.rank fs

/-- The sort is stable: what it holds of a rank is what there was, in the same order. -/
theorem ofRank_sortFields (k : Nat) (fs : List Field) : ofRank k (sortFields fs) = ofRank k fs :=
  ofKey_sortByKey Field.rank k fs

/-- The sort is the one list in order that holds the same of each rank. -/
theorem sortFields_eq_iff {fs gs : List Field} :
    sortFields fs = gs ↔ Ordered gs ∧ ∀ k, ofRank k gs = ofRank k fs := sortByKey_eq_iff Field.rank

theorem sortFields_of_ordered {fs : List Field} (h : Ordered fs) : sortFields fs = fs :=
  sortFields_eq_iff.2 ⟨h, fun _ => rfl⟩

theorem sortFields_congr {fs gs : List Field} (h : ∀ k, ofRank k fs = ofRank k gs) :
    sortFields fs = sortFields gs :=
  sortFields_eq_iff.2 ⟨ordered_sortFields gs, fun k => (ofRank_sortFields k gs).trans (h k).symm⟩

theorem sortFields_append_left (fs gs : List Field) :
    sortFields (sortFields fs ++ gs) = sortFields (fs ++ gs) :=
  sortFields_congr fun k => by simp only [ofRank_append, ofRank_sortFields]

theorem sortFields_append_right (fs gs : List Field) :
    sortFields (fs ++ sortFields gs) = sortFields (fs ++ gs) :=
  sortFields_congr fun k => by simp only [ofRank_append, ofRank_sortFields]

/-- A stable sort of what is kept is what is kept of a stable sort. -/
theorem filter_sortFields (p : Field → Bool) (fs : List Field) :
    (sortFields fs).filter p = sortFields (fs.filter p) := by
  have hcomm (k : Nat) (gs : List Field) : ofRank k (gs.filter p) = (ofRank k gs).filter p := by
    simp only [ofRank, List.filter_filter, Bool.and_comm]
  symm
  rw [sortFields_eq_iff]
  refine ⟨(ordered_sortFields fs).sublist List.filter_sublist, ?_⟩
  intro k
  rw [hcomm, hcomm, ofRank_sortFields]

/-- A field that comes no later than the others stays in front. -/
theorem sortFields_cons {f : Field} {fs : List Field} (h : ∀ g ∈ fs, f.rank ≤ g.rank) :
    sortFields (f :: fs) = f :: sortFields fs := by
  rw [sortFields_eq_iff, ordered_cons]
  refine ⟨⟨?_, ordered_sortFields fs⟩, ?_⟩
  · intro g hg
    exact h g ((sortFields_perm fs).mem_iff.1 hg)
  · intro k
    have := ofRank_append k [f] (sortFields fs)
    rw [ofRank_sortFields, ← ofRank_append] at this
    exact this

/-! ## Size and control number -/

theorem totalSize_eq_sum (fs : List Field) : totalSize fs = (fs.map Field.size).sum := by
  induction fs with
  | nil => rfl
  | cons f fs ih => rw [totalSize_cons, ih, List.map_cons, List.sum_cons]

/-- Leader and terminators, and for each field its entry, its contents and its terminator. -/
theorem exactSize_eq_sum (fs : List Field) :
    exactSize fs = 26 + (fs.map fun f => 12 + f.contents.utf8ByteSize + 1).sum := by
  rw [exactSize, totalSize_eq_sum]
  rfl

theorem totalSize_perm {fs gs : List Field} (h : fs.Perm gs) : totalSize fs = totalSize gs := by
  rw [totalSize_eq_sum, totalSize_eq_sum]
  exact (h.map Field.size).sum_nat

@[simp] theorem totalSize_sortFields (fs : List Field) : totalSize (sortFields fs) = totalSize fs :=
  totalSize_perm (sortFields_perm fs)

theorem size_le_totalSize {f : Field} {fs : List Field} (h : f ∈ fs) : f.size ≤ totalSize fs := by
  induction h with
  | head fs => exact Nat.le_add_right ..
  | tail g _ ih => exact Nat.le_trans ih (Nat.le_add_left ..)

/-- In order, the control number stands first if there is one. -/
theorem controlNumber?_isSome_iff {r : Record} (h : Ordered r.fields) :
    r.controlNumber?.isSome ↔ ∃ f ∈ r.fields, f.tag = Tag.controlNumber := by
  unfold Record.controlNumber?
  split
  · next f fs hr =>
    rw [hr] at h ⊢
    constructor
    · intro hsome
      split at hsome
      · next ht => exact ⟨f, List.mem_cons_self, ht⟩
      · cases hsome
    · rintro ⟨g, hg, ht⟩
      have hle : f.rank ≤ g.rank := by
        rcases List.mem_cons.1 hg with rfl | hg
        · exact Nat.le_refl _
        · exact (ordered_cons.1 h).1 g hg
      have hf : f.rank = 0 := by
        rw [rank_eq_zero_iff.2 ht] at hle
        omega
      rw [if_pos (rank_eq_zero_iff.1 hf)]
      rfl
  · next hr =>
    rw [hr]
    simp

end Marc21
