import Marc21.Proofs.Record.Coalescing

/-!
Deleting fields by their indices. Ranges with gaps between them that go one after the other, the last one first,
take exactly the fields in them, since what goes behind a range does not move it (`fields_foldr_deleteSpan`).
-/

namespace Marc21

/-- The fields in a range. -/
def fieldsIn (fs : List Field) (s : Span) : List Field := (fs.drop s.start).take (s.stop - s.start)

theorem length_fieldsIn {fs : List Field} {s : Span} (h : s.stop ≤ fs.length) :
    (fieldsIn fs s).length = s.stop - s.start := by
  rw [fieldsIn, List.length_take, List.length_drop]
  omega

theorem getElem?_fieldsIn {fs : List Field} {s : Span} {i : Nat} (h : s.start + i < s.stop) :
    (fieldsIn fs s)[i]? = fs[s.start + i]? := by
  rw [fieldsIn, List.getElem?_take_of_lt (by omega), List.getElem?_drop]

/-- A range and what comes behind it. -/
theorem fieldsIn_append_drop {fs : List Field} {s : Span} (h : s.start ≤ s.stop) :
    fieldsIn fs s ++ fs.drop s.stop = fs.drop s.start := by
  have hdrop : (fs.drop s.start).drop (s.stop - s.start) = fs.drop s.stop := by
    rw [List.drop_drop, Nat.add_sub_cancel' h]
  rw [fieldsIn, ← hdrop, List.take_append_drop]

/-- A range up to some place and what comes from there up to another. -/
theorem fieldsIn_append {fs : List Field} {start middle stop : Nat} (h : start ≤ middle)
    (h' : middle ≤ stop) :
    fieldsIn fs ⟨start, middle⟩ ++ fieldsIn fs ⟨middle, stop⟩ = fieldsIn fs ⟨start, stop⟩ := by
  have hdrop : fs.drop middle = (fs.drop start).drop (middle - start) := by
    rw [List.drop_drop, Nat.add_sub_cancel' h]
  have htaken : stop - start = middle - start + (stop - middle) := by omega
  rw [fieldsIn, fieldsIn, fieldsIn, hdrop, htaken, List.take_add]

/-- A range that begins where some fields stand and is as long as they are. -/
theorem fieldsIn_of_drop {fs gs after : List Field} {start stop : Nat}
    (h : fs.drop start = gs ++ after) (hlength : start + gs.length = stop) :
    fieldsIn fs ⟨start, stop⟩ = gs ∧ fs.drop stop = after := by
  subst hlength
  rw [fieldsIn, Nat.add_sub_cancel_left, ← List.drop_drop, h, List.take_left, List.drop_left]
  exact ⟨rfl, rfl⟩

/-- The fields at the wanted indices, where the first one of the list has the index `k`. -/
def fieldsAt (wanted : Nat → Prop) [DecidablePred wanted] (k : Nat) (fs : List Field) : List Field :=
  ((fs.zipIdx k).filter fun f => wanted f.2).map Prod.fst

section

variable {wanted : Nat → Prop} [DecidablePred wanted] {k : Nat} {fs : List Field}

theorem fieldsAt_append (k : Nat) (fs gs : List Field) :
    fieldsAt wanted k (fs ++ gs) = fieldsAt wanted k fs ++ fieldsAt wanted (k + fs.length) gs := by
  rw [fieldsAt, fieldsAt, fieldsAt, List.zipIdx_append, List.filter_append, List.map_append]

theorem fieldsAt_congr {other : Nat → Prop} [DecidablePred other]
    (h : ∀ i, k ≤ i → i < k + fs.length → (wanted i ↔ other i)) :
    fieldsAt wanted k fs = fieldsAt other k fs := by
  rw [fieldsAt, fieldsAt]
  congr 1
  refine List.filter_congr fun f hf => ?_
  exact decide_eq_decide.2 (h f.2 (List.le_snd_of_mem_zipIdx hf) (List.snd_lt_add_of_mem_zipIdx hf))

theorem fieldsAt_of_forall (h : ∀ i, k ≤ i → i < k + fs.length → wanted i) :
    fieldsAt wanted k fs = fs := by
  rw [fieldsAt, List.filter_eq_self.2, List.zipIdx_map_fst]
  intro f hf
  exact decide_eq_true (h f.2 (List.le_snd_of_mem_zipIdx hf) (List.snd_lt_add_of_mem_zipIdx hf))

theorem fieldsAt_of_forall_not (h : ∀ i, k ≤ i → i < k + fs.length → ¬wanted i) :
    fieldsAt wanted k fs = [] := by
  rw [fieldsAt, List.filter_eq_nil_iff.2, List.map_nil]
  intro f hf hwanted
  exact h f.2 (List.le_snd_of_mem_zipIdx hf) (List.snd_lt_add_of_mem_zipIdx hf)
    (of_decide_eq_true hwanted)

theorem fieldsAt_sublist (wanted : Nat → Prop) [DecidablePred wanted] (k : Nat) (fs : List Field) :
    (fieldsAt wanted k fs).Sublist fs := by
  have h := (List.filter_sublist (l := fs.zipIdx k) (p := fun f => wanted f.2)).map Prod.fst
  rwa [List.zipIdx_map_fst] at h

/-- What is wanted in front of a range, in it and behind it. -/
theorem fieldsAt_around {s : Span} (hle : s.start ≤ s.stop) (hstop : s.stop ≤ fs.length) :
    fieldsAt wanted 0 fs = fieldsAt wanted 0 (fs.take s.start) ++
      (fieldsAt wanted s.start (fieldsIn fs s) ++ fieldsAt wanted s.stop (fs.drop s.stop)) := by
  have hfront : (fs.take s.start).length = s.start := List.length_take_of_le (by omega)
  have hwithin : s.start + (fieldsIn fs s).length = s.stop := by
    rw [length_fieldsIn hstop]
    omega
  calc fieldsAt wanted 0 fs
      = fieldsAt wanted 0 (fs.take s.start ++ (fieldsIn fs s ++ fs.drop s.stop)) := by
        rw [fieldsIn_append_drop hle, List.take_append_drop]
    _ = _ := by rw [fieldsAt_append, fieldsAt_append, Nat.zero_add, hfront, hwithin]

end

namespace Record

/-- One range goes, in front of others that went already. -/
theorem fieldsAt_deleteSpan {s : Span} {spans : List Span} {fs : List Field}
    (h : Separate (s :: spans)) (hstop : s.stop ≤ fs.length) :
    let gs := fieldsAt (fun i => ¬Covered spans i) 0 fs
    gs.take s.start ++ gs.drop s.stop = fieldsAt (fun i => ¬Covered (s :: spans) i) 0 fs := by
  intro gs
  have hle : s.start ≤ s.stop := Nat.le_of_lt (h.lt_of_mem s List.mem_cons_self)
  have hfront : (fs.take s.start).length = s.start := List.length_take_of_le (by omega)
  have hwithin := length_fieldsIn hstop
  -- Up to the end of the range nothing went before.
  have hgs : gs = fs.take s.start ++
      (fieldsIn fs s ++ fieldsAt (fun i => ¬Covered spans i) s.stop (fs.drop s.stop)) := by
    rw [show gs = fieldsAt (fun i => ¬Covered spans i) 0 fs from rfl, fieldsAt_around hle hstop,
      fieldsAt_of_forall, fieldsAt_of_forall]
    · exact fun i _ hi => h.not_covered (by omega)
    · exact fun i _ hi => h.not_covered (by omega)
  have hleft : fieldsAt (fun i => ¬Covered (s :: spans) i) 0 fs =
      fs.take s.start ++ fieldsAt (fun i => ¬Covered spans i) s.stop (fs.drop s.stop) := by
    rw [fieldsAt_around hle hstop, fieldsAt_of_forall, fieldsAt_of_forall_not, List.nil_append]
    · congr 1
      refine fieldsAt_congr fun i hi _ => not_congr ?_
      rw [covered_cons]
      exact or_iff_right fun h => absurd h.2 (Nat.not_lt.2 hi)
    · intro i hi hlt hnot
      exact hnot (covered_cons.2 (.inl ⟨hi, by omega⟩))
    · intro i _ hi
      rw [covered_cons, not_or]
      exact ⟨by omega, h.not_covered (by omega)⟩
  rw [hleft, hgs, List.take_left' hfront, ← List.append_assoc, List.drop_left']
  rw [List.length_append]
  omega

/-- **What goes are the fields in the ranges.** -/
theorem fields_foldr_deleteSpan {r : Record} {spans : List Span} (h : Separate spans)
    (hstop : ∀ s ∈ spans, s.stop ≤ r.fields.length) :
    (spans.foldr (fun span r => r.deleteSpan span) r).fields =
      fieldsAt (fun i => ¬Covered spans i) 0 r.fields := by
  induction spans with
  | nil => exact (fieldsAt_of_forall fun i _ _ => not_covered_nil i).symm
  | cons s spans ih =>
    obtain ⟨hs, hrest⟩ := List.forall_mem_cons.1 hstop
    rw [List.foldr_cons, ← fieldsAt_deleteSpan h hs, ← ih h.tail hrest]
    rfl

end Record

end Marc21
