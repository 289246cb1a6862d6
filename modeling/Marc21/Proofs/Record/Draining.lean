import Marc21.Proofs.Record.BlockDeletion
import Marc21.Proofs.Record.Change

/-!
The ranges that a deletion of local blocks takes out. They are found on the fields as they were, and go one after
the other. The last one goes first, so when it is the turn of a range, all fields up to its end are still there
(`stop_le_length_fieldsAt`): a deletion that would stop at a range out of bounds comes to the same record
(`foldrM_drainSpan`), in which exactly the fields of the listed blocks are missing (`drainLocalBlocks_eq`).
-/

namespace Marc21

/-- When the ranges behind a range have gone, it still lies within what is left. -/
theorem stop_le_length_fieldsAt {s : Span} {spans : List Span} {fs : List Field}
    (h : Separate (s :: spans)) (hstop : s.stop ≤ fs.length) :
    s.stop ≤ (fieldsAt (fun i => ¬Covered spans i) 0 fs).length := by
  have hlength : (fs.take s.stop).length = s.stop := List.length_take_of_le hstop
  have hfront : fieldsAt (fun i => ¬Covered spans i) 0 (fs.take s.stop) = fs.take s.stop :=
    fieldsAt_of_forall fun i _ hi => h.not_covered (by omega)
  have hparts : fieldsAt (fun i => ¬Covered spans i) 0 fs =
      fs.take s.stop ++ fieldsAt (fun i => ¬Covered spans i) (0 + (fs.take s.stop).length) (fs.drop s.stop) := by
    conv_lhs => rw [← List.take_append_drop s.stop fs, fieldsAt_append, hfront]
  rw [hparts, List.length_append, hlength]
  exact Nat.le_add_right _ _

namespace Record

/-- Deletes a range, unless it ends before it starts or reaches beyond the fields, or the size is too small for it. -/
def drainSpan (r : Record) (span : Span) : Option Record :=
  if span.start ≤ span.stop ∧ span.stop ≤ r.fields.length then r.deleteSpanChecked span else none

/-- Deletes the blocks that start at the given indices, and stops at a range that cannot be deleted. -/
def drainLocalBlocks (r : Record) (starts : List Nat) : Option Record :=
  (coalesce (r.blocksAt starts)).foldrM (fun span r => r.drainSpan span) r

variable {r : Record} {spans : List Span}

theorem drainSpan_eq (h : r.size = exactSize r.fields) {span : Span} (hle : span.start ≤ span.stop)
    (hstop : span.stop ≤ r.fields.length) : r.drainSpan span = some (r.deleteSpan span) := by
  rw [drainSpan, if_pos ⟨hle, hstop⟩, deleteSpanChecked_eq h hle]

/-- Ranges with gaps between them can all be deleted, the last one first. -/
theorem foldrM_drainSpan (h : r.size = exactSize r.fields) (hspans : Separate spans)
    (hstop : ∀ s ∈ spans, s.stop ≤ r.fields.length) :
    let s := spans.foldr (fun span r => r.deleteSpan span) r
    spans.foldrM (fun span r => r.drainSpan span) r = some s ∧ s.leader = r.leader ∧
      s.size = exactSize s.fields := by
  induction spans with
  | nil => exact ⟨rfl, rfl, h⟩
  | cons span spans ih =>
    obtain ⟨hspan, hrest⟩ := List.forall_mem_cons.1 hstop
    have hle : span.start ≤ span.stop := Nat.le_of_lt (hspans.lt_of_mem span List.mem_cons_self)
    obtain ⟨hdrained, hleader, hsize⟩ := ih hspans.tail hrest
    have hwithin := stop_le_length_fieldsAt hspans hspan
    rw [← fields_foldr_deleteSpan hspans.tail hrest] at hwithin
    refine ⟨?_, hleader, size_deleteSpan hsize hle⟩
    rw [List.foldrM_cons, hdrained]
    exact drainSpan_eq hsize hle hwithin

/-- Of the listed indices only those count at which a block starts. -/
theorem blocksAt_congr {starts others : List Nat}
    (h : ∀ i ∈ r.localBlockStarts, i ∈ starts ↔ i ∈ others) : r.blocksAt starts = r.blocksAt others := by
  refine List.filter_congr fun b hb => ?_
  rw [Bool.eq_iff_iff, List.contains_iff_mem, List.contains_iff_mem]
  exact h b.start (r.map_start_localBlocks ▸ List.mem_map_of_mem hb)

/-! ## Main result -/

/-- **Deleting blocks takes exactly their fields.** From a record with the right size, whatever its order, every
range can be deleted when it is its turn. The fields that are left are those that lay in none of the listed blocks, in
their order, the leader is as it was, and the size is right. Neither the order of the list counts nor how often an
index stands in it, nor one at which no block starts. -/
theorem drainLocalBlocks_eq (h : r.size = exactSize r.fields) (starts : List Nat) :
    let s := r.deleteLocalBlocks starts
    r.drainLocalBlocks starts = some s ∧ s.leader = r.leader ∧
    s.fields = fieldsAt (fun i => ¬Covered (r.blocksAt starts) i) 0 r.fields ∧
    s.size = exactSize s.fields ∧
    ∀ others : List Nat, (∀ i ∈ r.localBlockStarts, i ∈ starts ↔ i ∈ others) →
      r.drainLocalBlocks others = some s := by
  intro s
  obtain ⟨hdrained, hleader, hsize⟩ :=
    foldrM_drainSpan h (r.separate_doomed starts) (r.stop_le_of_mem_doomed starts)
  refine ⟨hdrained, hleader, r.fields_deleteLocalBlocks starts, hsize, fun others hothers => ?_⟩
  rw [drainLocalBlocks, ← blocksAt_congr hothers]
  exact hdrained

/-- Of four blocks, which start at 1, 3, 5 and 7, the first two go together, since they touch, and the last one goes
before them. -/
theorem drainLocalBlocks_eq_touching :
    let r := withLocalTags ["001", "852", "001", "852", "001", "852", "001"]
    let starts := [7, 3, 2, 1, 3, 9]
    let s := r.deleteLocalBlocks starts
    r.size = exactSize r.fields ∧ r.drainLocalBlocks starts = some s ∧ s.leader = r.leader ∧
      s.fields = fieldsAt (fun i => i = 0 ∨ i = 5 ∨ i = 6) 0 r.fields ∧ s.size = exactSize s.fields ∧
      r.drainLocalBlocks [1, 3, 7] = some s := by
  intro r starts s
  obtain ⟨hdrained, hleader, hfields, hsize, hothers⟩ := drainLocalBlocks_eq (r := r) rfl starts
  refine ⟨rfl, hdrained, hleader, hfields.trans ?_, hsize, hothers [1, 3, 7] ?_⟩
  · decide +kernel
  · decide +kernel

end Record

end Marc21
