import Marc21.Proofs.Record.Invariant

/-!
Runs of changes. A run keeps a record well-formed whatever the changes and their order, and a run that
would stop at a size too small to subtract from comes to the same record (`runChecked_eq`).
-/

namespace Marc21

/-- A change that a caller can make to a record. -/
inductive Change where
  | insert (f : Field)
  | insertData (tag : Tag) (indicator1 indicator2 : Char) (subfields : Subfields)
  | addSubfield (tag : Tag) (code : Char) (value : String)
  | deleteSubfields (tag : Tag) (code : Char)
  | retag (old new : Tag)
  | merge (other : Record)
  | deleteFields (indices : List Nat)
  | deleteLocalBlocks (starts : List Nat)
  | sort
  | setLevel (level : BibliographicLevel)
  | setLeader (leader : Leader)
  deriving Repr

/-- The record after an insertion, which may have been refused or failed. -/
def Record.inserted (r : Record) (f : Field) : Record :=
  match r.insert f with
  | .ok (some s) => s
  | _ => r

namespace Change

def apply (c : Change) (r : Record) : Record :=
  match c with
  | insert f => r.inserted f
  | insertData tag indicator1 indicator2 ss => r.inserted (.data tag indicator1 indicator2 ss)
  | addSubfield tag code value => (r.addSubfield tag code value).getD r
  | deleteSubfields tag code => r.deleteSubfields tag code
  | retag old new => (r.retag old new).2
  | merge other => r.merge other
  | deleteFields indices => r.deleteFields indices
  | deleteLocalBlocks starts => r.deleteLocalBlocks starts
  | sort => r.sorted
  | setLevel level => r.setLevel level
  | setLeader leader => { r with leader }

def run (cs : List Change) (r : Record) : Record := cs.foldl (fun r c => c.apply r) r

end Change

/-! ## Subtraction that stops below zero -/

/-- Subtraction of machine numbers, which has no result below zero. -/
def checkedSub (m n : Nat) : Option Nat := if n ≤ m then some (m - n) else none

theorem checkedSub_eq {m n : Nat} (h : n ≤ m) : checkedSub m n = some (m - n) := if_pos h

namespace Record

def addSubfieldChecked (r : Record) (tag : Tag) (code : Char) (value : String) : Option Record :=
  if tag.isControl then some r
  else match r.firstField? tag with
    | none => some r
    | some f => do
      let size ← checkedSub r.size f.size
      return { r with
        fields := editFirst (fun f => f.addSubfield code value) tag r.fields
        size := size + (f.addSubfield code value).size }

def deleteFieldChecked (r : Record) (i : Nat) : Option Record :=
  match r.fields[i]? with
  | none => some r
  | some f => do
    let size ← checkedSub r.size f.size
    return { r with fields := r.fields.eraseIdx i, size }

def deleteFieldsChecked (r : Record) (indices : List Nat) : Option Record :=
  (indices.mergeSort fun i j => j ≤ i).eraseReps.foldlM deleteFieldChecked r

def deleteSpanChecked (r : Record) (span : Span) : Option Record := do
  let size ← checkedSub r.size
    (totalSize ((r.fields.drop span.start).take (span.stop - span.start)))
  return { r with fields := r.fields.take span.start ++ r.fields.drop span.stop, size }

def deleteLocalBlocksChecked (r : Record) (starts : List Nat) : Option Record :=
  (coalesce (r.localBlocks.filter fun b => starts.contains b.start)).foldrM
    (fun span r => r.deleteSpanChecked span) r

end Record

/-- A change, unless the size is too small for what the change takes off it. -/
def Change.applyChecked (c : Change) (r : Record) : Option Record :=
  match c with
  | addSubfield tag code value => r.addSubfieldChecked tag code value
  | deleteFields indices => r.deleteFieldsChecked indices
  | deleteLocalBlocks starts => r.deleteLocalBlocksChecked starts
  | c => some (c.apply r)

def Change.runChecked (cs : List Change) (r : Record) : Option Record :=
  cs.foldlM (fun r c => c.applyChecked r) r

namespace Record

variable {r : Record}

theorem addSubfieldChecked_eq (h : r.WellFormed) (tag : Tag) (code : Char) (value : String) :
    r.addSubfieldChecked tag code value = some ((r.addSubfield tag code value).getD r) := by
  unfold addSubfieldChecked addSubfield
  split
  · rfl
  · split
    · next hnone =>
      rw [hnone]
      rfl
    · next f hf =>
      have hle : f.size ≤ r.size := size_le_of_mem h.size_eq (List.mem_of_find?_eq_some hf)
      rw [hf, checkedSub_eq hle]
      rfl

theorem deleteFieldChecked_eq (h : r.size = exactSize r.fields) (i : Nat) :
    r.deleteFieldChecked i = some (r.deleteField i) := by
  unfold deleteFieldChecked deleteField
  split
  · next hnone => rw [hnone]
  · next f hf =>
    have hle : f.size ≤ r.size := size_le_of_mem h (List.mem_of_getElem? hf)
    rw [hf, checkedSub_eq hle]
    rfl

theorem deleteFieldsChecked_eq (h : r.size = exactSize r.fields) (indices : List Nat) :
    r.deleteFieldsChecked indices = some (r.deleteFields indices) := by
  unfold deleteFieldsChecked deleteFields
  generalize (indices.mergeSort fun i j => j ≤ i).eraseReps = indices
  induction indices generalizing r with
  | nil => rfl
  | cons i indices ih =>
    rw [List.foldlM_cons, deleteFieldChecked_eq h]
    exact ih (size_deleteField h i)

theorem deleteSpanChecked_eq (h : r.size = exactSize r.fields) {span : Span}
    (hle : span.start ≤ span.stop) : r.deleteSpanChecked span = some (r.deleteSpan span) := by
  have hsize : totalSize ((r.fields.drop span.start).take (span.stop - span.start)) ≤ r.size := by
    have := totalSize_span r.fields hle
    rw [h, exactSize]
    omega
  rw [deleteSpanChecked, checkedSub_eq hsize]
  rfl

/-- Spans go from the last to the first, so the record behind them is well-formed by then. -/
theorem deleteLocalBlocksChecked_eq (h : r.WellFormed) (starts : List Nat) :
    r.deleteLocalBlocksChecked starts = some (r.deleteLocalBlocks starts) := by
  have hle := start_le_stop_of_mem_doomed r starts
  unfold deleteLocalBlocksChecked deleteLocalBlocks
  generalize coalesce (r.localBlocks.filter fun b => starts.contains b.start) = spans at hle ⊢
  induction spans with
  | nil => rfl
  | cons s spans ih =>
    obtain ⟨hs, hspans⟩ := List.forall_mem_cons.1 hle
    rw [List.foldrM_cons, ih hspans]
    exact deleteSpanChecked_eq (h.foldr_deleteSpan hspans).size_eq hs

theorem WellFormed.inserted (h : r.WellFormed) (f : Field) : (r.inserted f).WellFormed := by
  unfold Record.inserted
  split
  · next s hs => exact h.insert hs
  · exact h

end Record

/-! ## Runs -/

namespace Change

variable {r : Record}

theorem apply_wellFormed (c : Change) (h : r.WellFormed) : (c.apply r).WellFormed := by
  cases c with
  | insert f => exact h.inserted f
  | insertData tag indicator1 indicator2 ss => exact h.inserted _
  | addSubfield tag code value =>
    rw [apply]
    cases hs : r.addSubfield tag code value with
    | none => exact h
    | some s => exact h.addSubfield hs
  | deleteSubfields tag code => exact h.deleteSubfields tag code
  | retag old new => exact h.retag old new
  | merge other => exact h.merge other
  | deleteFields indices => exact h.deleteFields indices
  | deleteLocalBlocks starts => exact h.deleteLocalBlocks starts
  | sort => exact h.sorted
  | setLevel level => exact ⟨h.ordered, h.size_eq⟩
  | setLeader leader => exact ⟨h.ordered, h.size_eq⟩

theorem applyChecked_eq (c : Change) (h : r.WellFormed) : c.applyChecked r = some (c.apply r) := by
  cases c with
  | addSubfield tag code value => exact Record.addSubfieldChecked_eq h tag code value
  | deleteFields indices => exact Record.deleteFieldsChecked_eq h.size_eq indices
  | deleteLocalBlocks starts => exact Record.deleteLocalBlocksChecked_eq h starts
  | _ => rfl

theorem run_wellFormed (cs : List Change) (h : r.WellFormed) : (run cs r).WellFormed := by
  induction cs generalizing r with
  | nil => exact h
  | cons c cs ih => exact ih (c.apply_wellFormed h)

theorem runChecked_eq (cs : List Change) (h : r.WellFormed) : runChecked cs r = some (run cs r) := by
  induction cs generalizing r with
  | nil => rfl
  | cons c cs ih =>
    rw [runChecked, List.foldlM_cons, applyChecked_eq c h]
    exact ih (c.apply_wellFormed h)

end Change

end Marc21
