import Marc21.Record.LocalBlock

/-!
Joining ranges. The joined ranges cover the same indices as those that were joined (`covered_coalesce`), and
between one of them and the next there is a gap (`separate_coalesce`). The ranges so far are held with the last
one in front, and since the others come in order of their starts, only that one can meet the next. No fewer ranges
cover the same indices, and no other ranges in the same number do (`Separate.length_le`, `Separate.perm`), so the
joined ranges depend on nothing but the indices that are covered (`coalesce_canonical`).
-/

namespace Marc21

/-- An index that lies in one of the ranges. -/
def Covered (spans : List Span) (i : Nat) : Prop := ∃ s ∈ spans, s.start ≤ i ∧ i < s.stop

instance (spans : List Span) : DecidablePred (Covered spans) :=
  fun i => inferInstanceAs (Decidable (∃ s ∈ spans, s.start ≤ i ∧ i < s.stop))

/-- Ranges that are not empty, each of which ends before the next one starts. -/
structure Separate (spans : List Span) : Prop where
  lt_of_mem : ∀ s ∈ spans, s.start < s.stop
  apart : spans.Pairwise fun s t => s.stop < t.start

@[simp] theorem not_covered_nil (i : Nat) : ¬Covered [] i := by
  simp [Covered]

@[simp] theorem covered_cons {s : Span} {spans : List Span} {i : Nat} :
    Covered (s :: spans) i ↔ (s.start ≤ i ∧ i < s.stop) ∨ Covered spans i := by
  simp [Covered]

namespace Separate

variable {s : Span} {spans : List Span}

theorem tail (h : Separate (s :: spans)) : Separate spans :=
  ⟨fun t ht => h.lt_of_mem t (List.mem_cons_of_mem s ht), (List.pairwise_cons.1 h.apart).2⟩

/-- Up to the end of the first range lies none of the others. -/
theorem not_covered (h : Separate (s :: spans)) {i : Nat} (hi : i ≤ s.stop) : ¬Covered spans i := by
  rintro ⟨t, ht, hle, _⟩
  have := (List.pairwise_cons.1 h.apart).1 t ht
  omega

end Separate

theorem covered_congr {spans others : List Span} (h : ∀ s, s ∈ spans ↔ s ∈ others) (i : Nat) :
    Covered spans i ↔ Covered others i := by
  simp only [Covered, h]

/-! ## One range more -/

section

variable {done : List Span} {s : Span}

/-- The range that the next one may meet starts no later than it. -/
def Precedes (done : List Span) (s : Span) : Prop := ∀ last ∈ done.head?, last.start ≤ s.start

theorem covered_joinSpan (h : Precedes done s) (i : Nat) :
    Covered (joinSpan done s) i ↔ Covered done i ∨ (s.start ≤ i ∧ i < s.stop) := by
  cases done with
  | nil => simp [joinSpan]
  | cons last rest =>
    have hle : last.start ≤ s.start := h last rfl
    rw [joinSpan]
    split
    · next hmeets =>
      have hboth : (last.start ≤ i ∧ i < max last.stop s.stop) ↔
          (last.start ≤ i ∧ i < last.stop) ∨ (s.start ≤ i ∧ i < s.stop) := by
        omega
      simp only [covered_cons, hboth]
      exact or_right_comm
    · simp only [covered_cons]
      exact or_comm

/-- The ranges so far, of which the last one stands in front, with one more. -/
theorem separate_joinSpan (hdone : Separate done.reverse) (hs : s.start < s.stop) :
    Separate (joinSpan done s).reverse := by
  obtain ⟨hlt, hapart⟩ := hdone
  simp only [List.mem_reverse, List.pairwise_reverse] at hlt hapart
  suffices (∀ t ∈ joinSpan done s, t.start < t.stop) ∧
      (joinSpan done s).Pairwise fun t u => u.stop < t.start by
    exact ⟨by simpa only [List.mem_reverse] using this.1, List.pairwise_reverse.2 this.2⟩
  cases done with
  | nil => exact ⟨List.forall_mem_singleton.2 hs, List.pairwise_singleton _ _⟩
  | cons last rest =>
    obtain ⟨hlast, hrest⟩ := List.forall_mem_cons.1 hlt
    obtain ⟨hbehind, hpairs⟩ := List.pairwise_cons.1 hapart
    rw [joinSpan]
    split
    · refine ⟨List.forall_mem_cons.2 ⟨?_, hrest⟩, List.pairwise_cons.2 ⟨hbehind, hpairs⟩⟩
      exact Nat.lt_of_lt_of_le hlast (Nat.le_max_left _ _)
    · next hgap =>
      refine ⟨List.forall_mem_cons.2 ⟨hs, hlt⟩, List.pairwise_cons.2 ⟨?_, hapart⟩⟩
      refine List.forall_mem_cons.2 ⟨Nat.lt_of_not_le hgap, fun t ht => ?_⟩
      have := hbehind t ht
      omega

theorem precedes_joinSpan {t : Span} (h : Precedes done s) (hle : s.start ≤ t.start) :
    Precedes (joinSpan done s) t := by
  cases done with
  | nil =>
    rintro last ⟨⟩
    exact hle
  | cons last rest =>
    have hlast : last.start ≤ s.start := h last rfl
    rw [joinSpan]
    split
    · rintro joined ⟨⟩
      exact Nat.le_trans hlast hle
    · rintro joined ⟨⟩
      exact hle

end

/-! ## All ranges -/

theorem foldl_joinSpan {todo done : List Span} (hdone : Separate done.reverse)
    (hlt : ∀ s ∈ todo, s.start < s.stop) (hsorted : todo.Pairwise fun s t => s.start ≤ t.start)
    (hprecedes : ∀ s ∈ todo, Precedes done s) :
    Separate (todo.foldl joinSpan done).reverse ∧
      ∀ i, Covered (todo.foldl joinSpan done) i ↔ Covered done i ∨ Covered todo i := by
  induction todo generalizing done with
  | nil => exact ⟨hdone, by simp⟩
  | cons s todo ih =>
    obtain ⟨hs, hlt⟩ := List.forall_mem_cons.1 hlt
    obtain ⟨hfirst, hsorted⟩ := List.pairwise_cons.1 hsorted
    obtain ⟨hhere, hprecedes⟩ := List.forall_mem_cons.1 hprecedes
    obtain ⟨hseparate, hcovered⟩ := ih (separate_joinSpan hdone hs) hlt hsorted
      fun t ht => precedes_joinSpan hhere (hfirst t ht)
    refine ⟨hseparate, fun i => ?_⟩
    rw [List.foldl_cons, hcovered, covered_joinSpan hhere, covered_cons, or_assoc]

theorem coalesce_spec {spans : List Span} (h : ∀ s ∈ spans, s.start < s.stop) :
    Separate (coalesce spans) ∧ ∀ i, Covered (coalesce spans) i ↔ Covered spans i := by
  let before (s t : Span) : Bool := decide (s.start ≤ t.start)
  have hsorted : (spans.mergeSort before).Pairwise fun s t => before s t = true :=
    List.pairwise_mergeSort
      (fun s t u hst htu => by simp only [before, decide_eq_true_eq] at *; omega)
      (fun s t => by simp only [before, Bool.or_eq_true, decide_eq_true_eq]; omega) spans
  have hnone : Separate ([] : List Span).reverse := ⟨by simp, List.Pairwise.nil⟩
  obtain ⟨hseparate, hcovered⟩ := foldl_joinSpan hnone
    (fun s hs => h s (List.mem_mergeSort.1 hs)) (hsorted.imp fun hle => of_decide_eq_true hle)
    (fun s _ last hlast => nomatch hlast)
  refine ⟨hseparate, fun i => ?_⟩
  rw [coalesce, covered_congr (fun _ => List.mem_reverse), hcovered,
    covered_congr fun _ => List.mem_mergeSort]
  simp

/-- Joining leaves gaps between the ranges. -/
theorem separate_coalesce {spans : List Span} (h : ∀ s ∈ spans, s.start < s.stop) :
    Separate (coalesce spans) := (coalesce_spec h).1

/-- Joining neither adds an index nor loses one. -/
theorem covered_coalesce {spans : List Span} (h : ∀ s ∈ spans, s.start < s.stop) (i : Nat) :
    Covered (coalesce spans) i ↔ Covered spans i := (coalesce_spec h).2 i

/-- The last index of a joined range lies in one of the ranges. -/
theorem stop_le_of_mem_coalesce {spans : List Span} (h : ∀ s ∈ spans, s.start < s.stop) {stop : Nat}
    (hstop : ∀ s ∈ spans, s.stop ≤ stop) : ∀ s ∈ coalesce spans, s.stop ≤ stop := by
  intro s hs
  have hlt := (separate_coalesce h).lt_of_mem s hs
  obtain ⟨t, ht, _, hlast⟩ := (covered_coalesce h (s.stop - 1)).1 ⟨s, hs, by omega, by omega⟩
  have := hstop t ht
  omega

/-! ## The fewest ranges -/

namespace Separate

variable {s : Span} {spans others : List Span}

/-- A range among others that cover the same indices cannot reach beyond the first one if it starts in front of its
end, since the index at that end is not covered. -/
theorem within (h : Separate (s :: spans)) (hcovered : ∀ i, Covered others i ↔ Covered (s :: spans) i)
    {t : Span} (ht : t ∈ others) (hlt : t.start < t.stop) (hbegins : t.start < s.stop) :
    s.start ≤ t.start ∧ t.stop ≤ s.stop := by
  have hstart : Covered (s :: spans) t.start := (hcovered _).1 ⟨t, ht, Nat.le_refl _, hlt⟩
  refine ⟨?_, Nat.not_lt.1 fun hbeyond => ?_⟩
  · rcases covered_cons.1 hstart with hfirst | hrest
    · exact hfirst.1
    · exact absurd hrest (h.not_covered (Nat.le_of_lt hbegins))
  · have hend : Covered (s :: spans) s.stop := (hcovered _).1 ⟨t, ht, Nat.le_of_lt hbegins, hbeyond⟩
    rcases covered_cons.1 hend with hfirst | hrest
    · exact absurd hfirst.2 (Nat.lt_irrefl _)
    · exact absurd hrest (h.not_covered (Nat.le_refl _))

/-- Of the ranges that cover the same indices, those that start behind the first one cover what the rest does. -/
theorem covered_behind (h : Separate (s :: spans)) (hcovered : ∀ i, Covered others i ↔ Covered (s :: spans) i)
    (i : Nat) : Covered (others.filter fun t => !decide (t.start < s.stop)) i ↔ Covered spans i := by
  constructor
  · rintro ⟨t, ht, hle, hlt⟩
    obtain ⟨hmem, hbehind⟩ := List.mem_filter.1 ht
    have hstop : s.stop ≤ t.start := by simpa using hbehind
    rcases covered_cons.1 ((hcovered i).1 ⟨t, hmem, hle, hlt⟩) with hfirst | hrest
    · omega
    · exact hrest
  · intro hrest
    have hstop : ¬i ≤ s.stop := fun hi => h.not_covered hi hrest
    obtain ⟨t, ht, hle, hlt⟩ := (hcovered i).2 (covered_cons.2 (.inr hrest))
    have hbehind : ¬t.start < s.stop := by
      intro hbegins
      have := (h.within hcovered ht (by omega) hbegins).2
      omega
    exact ⟨t, List.mem_filter.2 ⟨ht, by simpa using hbehind⟩, hle, hlt⟩

/-- Some of them cover the first range, and if that is only one, it is the first range. -/
theorem covering_first (h : Separate (s :: spans)) (hcovered : ∀ i, Covered others i ↔ Covered (s :: spans) i) :
    let here := others.filter fun t => t.start < s.stop
    here ≠ [] ∧ ∀ t, here = [t] → t = s := by
  intro here
  have hs : s.start < s.stop := h.lt_of_mem s List.mem_cons_self
  -- Whatever covers an index of the first range starts in front of its end.
  have hhere {i : Nat} (hle : s.start ≤ i) (hlt : i < s.stop) : ∃ t ∈ here, t.start ≤ i ∧ i < t.stop := by
    obtain ⟨t, ht, hti, hit⟩ := (hcovered i).2 (covered_cons.2 (.inl ⟨hle, hlt⟩))
    exact ⟨t, List.mem_filter.2 ⟨ht, decide_eq_true (Nat.lt_of_le_of_lt hti hlt)⟩, hti, hit⟩
  obtain ⟨first, hfirst, hfirststart, hfirststop⟩ := hhere (Nat.le_refl _) hs
  obtain ⟨last, hlast, _, hlaststop⟩ := hhere (i := s.stop - 1) (by omega) (by omega)
  refine ⟨List.ne_nil_of_mem hfirst, fun t ht => ?_⟩
  obtain rfl : first = t := List.mem_singleton.1 (ht ▸ hfirst)
  obtain rfl : last = first := List.mem_singleton.1 (ht ▸ hlast)
  obtain ⟨hmem, hbegins⟩ := List.mem_filter.1 hfirst
  obtain ⟨hstart, hstop⟩ := h.within hcovered hmem (by omega) (of_decide_eq_true hbegins)
  have hstarts : last.start = s.start := by omega
  have hstops : last.stop = s.stop := by omega
  calc last = ⟨last.start, last.stop⟩ := rfl
    _ = ⟨s.start, s.stop⟩ := by rw [hstarts, hstops]

theorem length_le (h : Separate spans) (hcovered : ∀ i, Covered others i ↔ Covered spans i) :
    spans.length ≤ others.length := by
  induction spans generalizing others with
  | nil => exact Nat.zero_le _
  | cons s spans ih =>
    have hparts := (List.filter_append_perm (fun t => decide (t.start < s.stop)) others).length_eq
    have hhere := List.length_pos_iff.2 (h.covering_first hcovered).1
    have hbehind := ih h.tail (h.covered_behind hcovered)
    rw [List.length_append] at hparts
    rw [List.length_cons]
    omega

/-- No other ranges in the same number cover the same indices. -/
theorem perm (h : Separate spans) (hcovered : ∀ i, Covered others i ↔ Covered spans i)
    (hlength : others.length = spans.length) : others.Perm spans := by
  induction spans generalizing others with
  | nil => rw [List.length_eq_zero_iff.1 hlength]
  | cons s spans ih =>
    have hparts := List.filter_append_perm (fun t => decide (t.start < s.stop)) others
    obtain ⟨hne, hfirst⟩ := h.covering_first hcovered
    have hcount := hparts.length_eq
    have hhere := List.length_pos_iff.2 hne
    have hbehind := h.tail.length_le (h.covered_behind hcovered)
    rw [List.length_append, hlength, List.length_cons] at hcount
    have hone : (others.filter fun t => decide (t.start < s.stop)).length = 1 := by omega
    have hrest := ih h.tail (h.covered_behind hcovered) (by omega)
    obtain ⟨t, ht⟩ := List.length_eq_one_iff.1 hone
    obtain rfl := hfirst t ht
    rw [ht] at hparts
    exact hparts.symm.trans (hrest.cons t)

/-- Ranges with gaps between them are the only ones of their kind that cover their indices. -/
theorem eq_of_covered (h : Separate spans) (hothers : Separate others)
    (hcovered : ∀ i, Covered others i ↔ Covered spans i) : others = spans := by
  have hlength : others.length = spans.length :=
    Nat.le_antisymm (hothers.length_le fun i => (hcovered i).symm) (h.length_le hcovered)
  refine List.Perm.eq_of_pairwise ?_ hothers.apart h.apart (h.perm hcovered hlength)
  intro s t hs ht hst hts
  have := hothers.lt_of_mem s hs
  have := h.lt_of_mem t ht
  omega

end Separate

/-! ## Main result -/

/-- **Joining finds the one shortest list.** The joined ranges cover the indices that the given ones cover, none of
them is empty, and each ends before the next one starts. Any list of ranges that cover these indices is at least as
long, and one that is as long holds the same ranges. So neither the order of the ranges counts nor how the indices
are spread over them, and ranges that have been joined stay as they are. -/
theorem coalesce_canonical {spans : List Span} (h : ∀ s ∈ spans, s.start < s.stop) :
    (∀ i, Covered (coalesce spans) i ↔ Covered spans i) ∧ Separate (coalesce spans) ∧
    (∀ others : List Span, (∀ i, Covered others i ↔ Covered spans i) →
      (coalesce spans).length ≤ others.length ∧
      (others.length = (coalesce spans).length → others.Perm (coalesce spans)) ∧
      (Separate others → others = coalesce spans) ∧
      ((∀ s ∈ others, s.start < s.stop) → coalesce others = coalesce spans)) ∧
    (∀ others : List Span, others.Perm spans → coalesce others = coalesce spans) ∧
    coalesce (coalesce spans) = coalesce spans := by
  have hseparate := separate_coalesce h
  have hcovered := covered_coalesce h
  have hsame {others : List Span} (hothers : ∀ s ∈ others, s.start < s.stop)
      (hcovers : ∀ i, Covered others i ↔ Covered spans i) : coalesce others = coalesce spans :=
    hseparate.eq_of_covered (separate_coalesce hothers) fun i =>
      ((covered_coalesce hothers i).trans (hcovers i)).trans (hcovered i).symm
  refine ⟨hcovered, hseparate, fun others hcovers => ?_, fun others hperm => ?_, ?_⟩
  · have hjoined (i : Nat) : Covered others i ↔ Covered (coalesce spans) i :=
      (hcovers i).trans (hcovered i).symm
    exact ⟨hseparate.length_le hjoined, hseparate.perm hjoined,
      fun hothers => hseparate.eq_of_covered hothers hjoined, fun hothers => hsame hothers hcovers⟩
  · exact hsame (fun s hs => h s (hperm.mem_iff.1 hs)) (covered_congr fun s => hperm.mem_iff)
  · exact hsame hseparate.lt_of_mem hcovered

/-- Ranges that touch, overlap, lie within another or come twice. -/
theorem coalesce_canonical_touching :
    let spans : List Span := [⟨7, 9⟩, ⟨2, 4⟩, ⟨4, 6⟩, ⟨3, 5⟩, ⟨2, 4⟩]
    (∀ s ∈ spans, s.start < s.stop) ∧ coalesce spans = [⟨2, 6⟩, ⟨7, 9⟩] ∧
      [⟨7, 9⟩, ⟨2, 6⟩].Perm (coalesce spans) ∧ coalesce [⟨7, 9⟩, ⟨5, 6⟩, ⟨2, 5⟩] = coalesce spans ∧
      coalesce spans.reverse = coalesce spans ∧ coalesce (coalesce spans) = coalesce spans := by
  intro spans
  have hlt : ∀ s ∈ spans, s.start < s.stop := by decide
  obtain ⟨_, _, hothers, hperm, hagain⟩ := coalesce_canonical hlt
  have hinOrder (i : Nat) : Covered [⟨2, 6⟩, ⟨7, 9⟩] i ↔ Covered spans i := by
    simp only [spans, covered_cons, not_covered_nil, or_false]
    omega
  have hreversed (i : Nat) : Covered [⟨7, 9⟩, ⟨2, 6⟩] i ↔ Covered spans i := by
    simp only [spans, covered_cons, not_covered_nil, or_false]
    omega
  have hcut (i : Nat) : Covered [⟨7, 9⟩, ⟨5, 6⟩, ⟨2, 5⟩] i ↔ Covered spans i := by
    simp only [spans, covered_cons, not_covered_nil, or_false]
    omega
  have hjoined := (hothers _ hinOrder).2.2.1 ⟨by decide, by decide⟩
  have hlength : 2 = (coalesce spans).length := congrArg List.length hjoined
  refine ⟨hlt, hjoined.symm, (hothers _ hreversed).2.1 hlength, ?_, hperm _ spans.reverse_perm, hagain⟩
  exact (hothers _ hcut).2.2.2 (by decide)

end Marc21
