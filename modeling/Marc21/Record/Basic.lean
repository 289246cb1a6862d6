import Marc21.Field
import Marc21.Error

/-!
Records: a leader, fields in order, and the size that the record would have in one binary piece. The
size is kept beside the fields, and `exactSize` says what it ought to be.
-/

namespace Marc21

/-- Indices from `start` up to but not including `stop`. -/
structure Span where
  start : Nat
  stop : Nat
  deriving DecidableEq, Repr

structure Record where
  leader : Leader
  fields : List Field
  size : Nat
  deriving DecidableEq, Repr

/-- Bytes that fields take up in a binary record. -/
def totalSize (fields : List Field) : Nat := fields.foldr (fun f n => f.size + n) 0

/-- Leader, directory entries, fields and the two terminators that close directory and record. -/
def exactSize (fields : List Field) : Nat := 26 + totalSize fields

/-- A stable sort: `001` comes first, and fields of one tag keep their order. -/
def sortFields (fields : List Field) : List Field :=
  fields.mergeSort fun f g => f.rank ≤ g.rank

namespace Record

def ofParts (leader : Leader) (fields : List Field) : Record := ⟨leader, fields, exactSize fields⟩

def sorted (r : Record) : Record := { r with fields := sortFields r.fields }

def appendAll (r : Record) (fields : List Field) : Record :=
  { r with fields := r.fields ++ fields, size := r.size + totalSize fields }

def append (r : Record) (f : Field) : Record := r.appendAll [f]

/-- A record with a fresh leader, and with a control number unless that is empty. -/
def fresh (type : MaterialType) (level : BibliographicLevel) (controlNumber : Option String) :
    Record :=
  let r := ofParts (Leader.fresh type level) []
  match controlNumber with
  | some s => if s = "" then r else r.append ⟨Tag.controlNumber, s⟩
  | none => r

/-- A record of the given fields in record order. Nothing keeps a field from repeating. -/
def build (type : MaterialType) (level : BibliographicLevel) (fields : List Field) : Record :=
  (ofParts (Leader.fresh type level) fields).sorted

/-- The contents of a leading `001`. -/
def controlNumber? (r : Record) : Option String :=
  match r.fields with
  | f :: _ => if f.tag = Tag.controlNumber then some f.contents else none
  | [] => none

end Record

@[simp] theorem totalSize_nil : totalSize [] = 0 := rfl

@[simp] theorem totalSize_cons (f : Field) (fs : List Field) :
    totalSize (f :: fs) = f.size + totalSize fs := rfl

@[simp] theorem totalSize_append (fs gs : List Field) :
    totalSize (fs ++ gs) = totalSize fs + totalSize gs := by
  induction fs with
  | nil => simp
  | cons f fs ih => simp [ih, Nat.add_assoc]

theorem sortFields_perm (fields : List Field) : (sortFields fields).Perm fields :=
  List.mergeSort_perm fields _

end Marc21
