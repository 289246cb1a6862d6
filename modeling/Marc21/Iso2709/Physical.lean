import Marc21.Record.Basic
import Marc21.Notice

/-!
Physical records: a leader, a directory of 12-byte entries, a field terminator, and the data segment to
which the entries point. `parse` reads one, and `encode` writes one.
-/

namespace Marc21.Iso2709

def fieldTerminator : UInt8 := 0x1E

def recordTerminator : UInt8 := 0x1D

/-- Where the directory says a field lies in the data segment. The length takes in the terminator. -/
structure Entry where
  tag : Tag
  length : Nat
  offset : Nat
  deriving DecidableEq, Repr

namespace Entry

def encode (e : Entry) : Bytes :=
  e.tag.bytes ++ Decimal.padded 4 e.length ++ Decimal.padded 5 e.offset

/-- Reads an entry of 12 bytes. -/
def ofBytes (bs : Bytes) : Except DirectoryFault Entry :=
  match Tag.ofBytes? (bs.take 3) with
  | none => .error (.badTag (Utf8.decodeLossy (bs.take 3)))
  | some tag =>
    match Decimal.value? ((bs.drop 3).take 4), Decimal.value? (bs.drop 7) with
    | some length, some offset => .ok ⟨tag, length, offset⟩
    | _, _ => .error (.notNumeric (Utf8.decodeLossy bs))

/-- The bytes of the field that an entry points to, up to its terminator. -/
def contents (e : Entry) (data : Array UInt8) : Except DirectoryFault Bytes :=
  if e.length = 0 ∨ e.offset + e.length > data.size then
    .error (.outsideData e.tag e.offset e.length data.size)
  else
    .ok ((data.extract e.offset (e.offset + e.length)).toList.takeWhile (· != fieldTerminator))

end Entry

/-- Cuts off `count` pieces of 12 bytes. -/
def entrySlices : Nat → Bytes → List Bytes
  | 0, _ => []
  | count + 1, bs => bs.take 12 :: entrySlices count (bs.drop 12)

/-- The field of one directory entry: its tag and the bytes of its contents. -/
def rawField (data : Array UInt8) (slice : Bytes) : Except DirectoryFault (Tag × Bytes) := do
  let e ← Entry.ofBytes slice
  return (e.tag, ← e.contents data)

def readField (data : Array UInt8) (slice : Bytes) : Except DirectoryFault Field := do
  let (tag, contents) ← rawField data slice
  return ⟨tag, Utf8.decodeLossy contents⟩

/-- The directory lies between the leader and the data, and ends at the first field terminator. -/
def directory (l : Leader) (bs : Bytes) : Bytes :=
  ((bs.drop 24).take (l.baseAddress - 1 - 24)).takeWhile (· != fieldTerminator)

def dataSegment (l : Leader) (bs : Bytes) : Array UInt8 :=
  ((bs.drop l.baseAddress).take (l.recordLength - l.baseAddress)).toArray

/-- The leader of a physical record that lies within the given bytes. -/
def parseLeader (bs : Bytes) : Except LeaderFault Leader := do
  let l ← Leader.ofBytes bs
  l.checkLengths
  if l.recordLength > bs.length then throw (.recordBeyondInput l.recordLength bs.length)
  return l

def parseFields (l : Leader) (bs : Bytes) : Except DirectoryFault (List Field) :=
  let dir := directory l bs
  if dir.length % 12 ≠ 0 then .error (.ragged dir.length)
  else
    (entrySlices (dir.length / 12) dir).mapM (readField (dataSegment l bs))

/-- Reads the physical record at the start of `bs`. Its fields are put in record order. -/
def parse (bs : Bytes) : Except MarcError Record :=
  match parseLeader bs with
  | .error fault => .error (.malformedLeader fault)
  | .ok l =>
    match parseFields l bs with
    | .error fault => .error (.malformedDirectory fault)
    | .ok fields => .ok (Record.ofParts l fields).sorted

/-- Fields whose contents `parse` cannot decode faithfully, up to the entry at which it gives up. -/
def replacements (l : Leader) (bs : Bytes) : List Notice :=
  let dir := directory l bs
  if dir.length % 12 ≠ 0 then []
  else
    let data := dataSegment l bs
    let raw := (entrySlices (dir.length / 12) dir).map (rawField data)
    (raw.takeWhile (·.isOk)).filterMap fun
      | .ok (tag, contents) => if Utf8.wellFormed contents then none else some (.bytesReplaced tag)
      | .error _ => none

/-- The notices that go with `parse`. -/
def parseNotices (bs : Bytes) : List Notice :=
  match Leader.ofBytes bs with
  | .error _ => []
  | .ok l => l.notices ++ match parseLeader bs with
    | .error _ => []
    | .ok l => replacements l bs

/-- Directory entries of fields that lie one after the other from `offset` on. -/
def entries : Nat → List Field → List Entry
  | _, [] => []
  | offset, f :: fs =>
    let length := f.contents.utf8ByteSize + 1
    ⟨f.tag, length, offset⟩ :: entries (offset + length) fs

def encodeField (f : Field) : Bytes := Utf8.encode f.contents ++ [fieldTerminator]

/-- A physical record of the given fields. The leader gets the record length and the base address. -/
def encode (l : Leader) (fields : List Field) (recordLength : Nat) : Bytes :=
  { l with recordLength, baseAddress := 24 + fields.length * 12 + 1 }.bytes ++
    (entries 0 fields).flatMap Entry.encode ++ [fieldTerminator] ++
    fields.flatMap encodeField ++ [recordTerminator]

end Marc21.Iso2709
