import Marc21.Record.Edit
import Marc21.Notice

/-!
Grouping physical records into logical ones. Neighbours with the same control number are one record.
The last record seen is held back until it is known that nothing continues it.
-/

namespace Marc21.Iso2709

/-- The record held back, with the offset at which it starts. -/
structure Grouping where
  held : Option (Nat × Record)
  deriving DecidableEq, Repr

/-- True if both records have a control number and it is the same. -/
def continues (r next : Record) : Bool :=
  match r.controlNumber?, next.controlNumber? with
  | some a, some b => a == b
  | _, _ => false

namespace Grouping

def empty : Grouping := ⟨none⟩

def heldOffset? (g : Grouping) : Option Nat := g.held.map Prod.fst

/-- Takes in the physical record that starts at `offset`, and gives out the record that it completes. -/
def push (g : Grouping) (offset : Nat) (next : Record) : Option Record × Grouping :=
  match g.held with
  | none => (none, ⟨some (offset, next)⟩)
  | some (start, r) =>
    if continues r next then (none, ⟨some (start, r.merge next)⟩)
    else (some r, ⟨some (offset, next)⟩)

/-- Gives out the record held back, at the end of the input. -/
def finish (g : Grouping) : Option Record × Grouping := (g.held.map Prod.snd, empty)

def pushNotices (g : Grouping) (next : Record) : List Notice :=
  match g.held with
  | none => []
  | some (_, r) =>
    if continues r next then [.chunkMerged (next.controlNumber?.getD "") next.fields.length] else []

end Grouping

end Marc21.Iso2709
