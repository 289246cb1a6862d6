import Marc21.Record.Query

/-!
Changes to a record. Each one keeps the size in step with the fields, and each one that can put a field
out of order sorts again.
-/

namespace Marc21.Record

/-- Where a field belongs in a record in order: behind those that come no later. -/
def place (r : Record) (f : Field) : Nat := bisect (·.rank ≤ f.rank) r.fields

/-- A record with one more field, where it belongs. -/
def withField (r : Record) (f : Field) : Record :=
  { r with
    fields := r.fields.take (r.place f) ++ f :: r.fields.drop (r.place f)
    size := r.size + f.size }

/-- Adds a field, or nothing if its tag is there and may not repeat. -/
def insert (r : Record) (f : Field) : Except MarcError (Option Record) := do
  if r.hasTag f.tag then
    if !(← f.tag.isRepeatable) then return none
  return some (r.withField f)

/-- Applies a change to the first field with a tag. -/
def editFirst (edit : Field → Field) (tag : Tag) : List Field → List Field
  | [] => []
  | f :: fs => if f.tag = tag then edit f :: fs else f :: editFirst edit tag fs

/-- Adds a subfield to the first field with a tag, if there is one and the tag is not a control tag. -/
def addSubfield (r : Record) (tag : Tag) (code : Char) (value : String) : Option Record :=
  if tag.isControl then none
  else (r.firstField? tag).map fun f =>
    { r with
      fields := editFirst (fun f => f.addSubfield code value) tag r.fields
      size := r.size - f.size + (f.addSubfield code value).size }

/-- Applies a change to the fields of a tag's run. -/
def editRun (r : Record) (tag : Tag) (edit : Field → Field) : List Field :=
  let span := r.tagSpan tag
  r.fields.take span.start ++ (r.fieldsWithTag tag).map edit ++ r.fields.drop span.stop

def deleteSubfields (r : Record) (tag : Tag) (code : Char) : Record :=
  ofParts r.leader (r.editRun tag fun f => f.deleteSubfields code)

/-- Gives the fields of a tag's run another tag, and tells how many there are. -/
def retag (r : Record) (old new : Tag) : Nat × Record :=
  let changed := (r.fieldsWithTag old).length
  if changed = 0 then (0, r)
  else (changed, { r with fields := r.editRun old fun f => { f with tag := new } }.sorted)

/-- Adds the fields of another record, without its `001` if there is one already. -/
def merge (r other : Record) : Record :=
  let wanted := if r.controlNumber?.isSome
    then other.fields.filter (·.tag ≠ Tag.controlNumber)
    else other.fields
  (r.appendAll wanted).sorted

def deleteField (r : Record) (i : Nat) : Record :=
  match r.fields[i]? with
  | some f => { r with fields := r.fields.eraseIdx i, size := r.size - f.size }
  | none => r

/-- Deletes the fields at the given indices, the last one first. -/
def deleteFields (r : Record) (indices : List Nat) : Record :=
  (indices.mergeSort fun i j => j ≤ i).eraseReps.foldl deleteField r

def deleteSpan (r : Record) (span : Span) : Record :=
  let doomed := (r.fields.drop span.start).take (span.stop - span.start)
  { r with
    fields := r.fields.take span.start ++ r.fields.drop span.stop
    size := r.size - totalSize doomed }

def setLevel (r : Record) (level : BibliographicLevel) : Record :=
  { r with leader := { r.leader with level := level.code } }

end Marc21.Record
