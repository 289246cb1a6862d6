import Marc21.Iso2709.Physical

/-!
Splitting a record that is too large for one physical record. Each part takes as many of the remaining
fields as it can hold, and each part after the first starts with a copy of the record's first field.
-/

namespace Marc21.Iso2709

/-- A record length has five digits, and the largest is not used. -/
def recordLimit : Nat := 99999

/-- A length of 9999 with the terminator is the most that a directory entry can give. -/
def contentsLimit : Nat := 9998

/-- One physical record: its fields, and the length that they come to. -/
structure Part where
  fields : List Field
  size : Nat
  deriving DecidableEq, Repr

def Part.encode (p : Part) (l : Leader) : Bytes := Iso2709.encode l p.fields p.size

/-- Adds fields to a part of the given size while it stays below the limit: the fields taken, the size
then, and the fields left. -/
def fill (size : Nat) : List Field → List Field × Nat × List Field
  | [] => ([], size, [])
  | f :: fs =>
    if size + f.size < recordLimit then
      let (taken, total, left) := fill (size + f.size) fs
      (f :: taken, total, left)
    else ([], size, f :: fs)

/-- The first of `fields` always goes, even if there is no room for it. -/
def advance (fields : List Field) (left : List Field) : List Field :=
  if left.length < fields.length then left else fields.drop 1

/-- The parts behind the first, for the fields that are left. -/
def continuations (first : Field) (fields : List Field) : List Part :=
  if _h : fields = [] then []
  else
    let (taken, size, left) := fill (26 + first.size) fields
    ⟨first :: taken, size⟩ :: continuations first (advance fields left)
termination_by fields.length
decreasing_by
  have : 0 < fields.length := List.length_pos_iff.2 _h
  unfold advance
  split
  · assumption
  · rw [List.length_drop]
    omega

/-- The parts of a record. One without fields has one part. -/
def parts (fields : List Field) : List Part :=
  match fields with
  | [] => [⟨[], 26⟩]
  | first :: _ =>
    let (taken, size, left) := fill 26 fields
    ⟨taken, size⟩ :: continuations first (advance fields left)

/-- The physical records that a record is written as, unless a field is too long for any. -/
def split (r : Record) : Except MarcError (List Bytes) :=
  match r.fields.find? fun f => contentsLimit < f.contents.utf8ByteSize with
  | some f => .error (.fieldTooLong f.tag f.contents.utf8ByteSize)
  | none => .ok ((parts r.fields).map fun p => p.encode r.leader)

end Marc21.Iso2709
