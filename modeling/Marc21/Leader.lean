import Marc21.Text.Decimal
import Marc21.Text.Quoted

/-!
The leader: 24 bytes at the start of every record. Positions 0 to 4 and 12 to 16 hold the record length
and the base address of the data, positions 10 and 11 one digit each, and all others one character.
-/

namespace Marc21

/-- Positions 20 to 23: the widths of the parts of a directory entry. -/
structure EntryMap where
  lengthWidth : Char
  offsetWidth : Char
  implementationWidth : Char
  undefined : Char
  deriving DecidableEq, Repr

structure Leader where
  recordLength : Nat
  status : Char
  recordType : Char
  level : Char
  controlType : Char
  coding : Char
  indicatorCount : Nat
  subfieldCodeCount : Nat
  baseAddress : Nat
  encodingLevel : Char
  catalogingForm : Char
  multipartLevel : Char
  entryMap : EntryMap
  deriving DecidableEq, Repr

inductive LeaderNumber where
  | recordLength
  | baseAddress
  deriving DecidableEq, Repr

inductive LeaderCount where
  | indicators
  | subfieldCodes
  deriving DecidableEq, Repr

/-- What makes a leader, or the record length that opens it, unusable. -/
inductive LeaderFault where
  | short (length : Nat)
  | notAscii (text : String)
  | notNumeric (what : LeaderNumber) (text : String)
  | notDigit (what : LeaderCount) (found : Char)
  | recordLengthSmall (length : Nat)
  | baseAddressSmall (base : Nat)
  | baseBeyondRecord (base length : Nat)
  | recordBeyondInput (length available : Nat)
  | lengthUnread (offset : Nat)
  | lengthUnusable (text : String) (offset : Nat)
  | recordTruncated (offset length : Nat)
  deriving DecidableEq, Repr

def LeaderNumber.name : LeaderNumber → String
  | .recordLength => "record length"
  | .baseAddress => "base address of data"

def LeaderCount.name : LeaderCount → String
  | .indicators => "indicator count"
  | .subfieldCodes => "subfield code count"

def LeaderFault.message : LeaderFault → String
  | .short length => s!"Leader must be at least 24 bytes, got {length}"
  | .notAscii text => s!"Leader contains non-ASCII bytes: {Quoted.text text}"
  | .notNumeric what text => s!"Can't parse {what.name}: found {Quoted.text text}"
  | .notDigit what found => s!"Invalid {what.name}: {Quoted.char found}"
  | .recordLengthSmall length => s!"Record length must be at least 24, got {length}"
  | .baseAddressSmall base => s!"Base address of data must be at least 24, got {base}"
  | .baseBeyondRecord base length =>
    s!"Base address of data {base} exceeds record length {length}"
  | .recordBeyondInput length available =>
    s!"record length {length} exceeds the {available} bytes available"
  | .lengthUnread offset => s!"failed to read record length at offset {offset}"
  | .lengthUnusable text offset =>
    s!"invalid record length {Quoted.text text} at offset {offset}"
  | .recordTruncated offset length =>
    s!"record at offset {offset} is truncated (expected {length} bytes)"

inductive MaterialType where
  | languageMaterial
  | notatedMusic
  | manuscriptNotatedMusic
  | cartographicMaterial
  | manuscriptCartographicMaterial
  | projectedMedium
  | nonmusicalSoundRecording
  | musicalSoundRecording
  | twoDimensionalNonprojectableGraphic
  | computerFile
  | kit
  | mixedMaterials
  | threeDimensionalArtifact
  | manuscriptLanguageMaterial
  deriving DecidableEq, Repr

def MaterialType.code : MaterialType → Char
  | .languageMaterial => 'a'
  | .notatedMusic => 'c'
  | .manuscriptNotatedMusic => 'd'
  | .cartographicMaterial => 'e'
  | .manuscriptCartographicMaterial => 'f'
  | .projectedMedium => 'g'
  | .nonmusicalSoundRecording => 'i'
  | .musicalSoundRecording => 'j'
  | .twoDimensionalNonprojectableGraphic => 'k'
  | .computerFile => 'm'
  | .kit => 'o'
  | .mixedMaterials => 'p'
  | .threeDimensionalArtifact => 'r'
  | .manuscriptLanguageMaterial => 't'

inductive BibliographicLevel where
  | monographicComponentPart
  | serialComponentPart
  | collection
  | subunit
  | integratingResource
  | monographOrItem
  | serial
  deriving DecidableEq, Repr

def BibliographicLevel.code : BibliographicLevel → Char
  | .monographicComponentPart => 'a'
  | .serialComponentPart => 'b'
  | .collection => 'c'
  | .subunit => 'd'
  | .integratingResource => 'i'
  | .monographOrItem => 'm'
  | .serial => 's'

/-- The kind of record that position 6 stands for. -/
inductive RecordClass where
  | authority
  | classification
  | bibliographic
  | unknown
  deriving DecidableEq, Repr

namespace Leader

/-- The leader of a record made from nothing. -/
def fresh (type : MaterialType) (level : BibliographicLevel) : Leader where
  recordLength := 0
  status := 'n'
  recordType := type.code
  level := level.code
  controlType := ' '
  coding := 'a'
  indicatorCount := 2
  subfieldCodeCount := 2
  baseAddress := 445
  encodingLevel := '2'
  catalogingForm := ' '
  multipartLevel := ' '
  entryMap := ⟨'4', '5', '0', '0'⟩

def number (what : LeaderNumber) (bs : Bytes) : Except LeaderFault Nat :=
  match Decimal.value? bs with
  | some n => .ok n
  | none => .error (.notNumeric what (Utf8.decodeLossy bs))

def count (what : LeaderCount) (b : UInt8) : Except LeaderFault Nat :=
  if isDigit b then .ok (b.toNat - 0x30) else .error (.notDigit what (Char.ofNat b.toNat))

/-- Reads a leader from the first 24 bytes. -/
def ofBytes (bs : Bytes) : Except LeaderFault Leader := do
  let head := bs.take 24
  if head.length < 24 then throw (.short bs.length)
  if !head.all (· < 0x80) then throw (.notAscii (Utf8.decodeLossy head))
  let char (i : Nat) : Char := Char.ofNat (head.getD i 0).toNat
  let recordLength ← number .recordLength (head.take 5)
  let indicatorCount ← count .indicators (head.getD 10 0)
  let subfieldCodeCount ← count .subfieldCodes (head.getD 11 0)
  let baseAddress ← number .baseAddress ((head.drop 12).take 5)
  return {
    recordLength, indicatorCount, subfieldCodeCount, baseAddress
    status := char 5, recordType := char 6, level := char 7, controlType := char 8
    coding := char 9, encodingLevel := char 17, catalogingForm := char 18
    multipartLevel := char 19, entryMap := ⟨char 20, char 21, char 22, char 23⟩ }

/-- Requirements on the two lengths for reading a binary record. -/
def checkLengths (l : Leader) : Except LeaderFault Unit := do
  if l.recordLength < 24 then throw (.recordLengthSmall l.recordLength)
  if l.baseAddress < 24 then throw (.baseAddressSmall l.baseAddress)
  if l.baseAddress > l.recordLength then throw (.baseBeyondRecord l.baseAddress l.recordLength)

def lowByte (c : Char) : UInt8 := c.toNat.toUInt8

/-- The 24 bytes of a leader. The lengths keep their last five digits and the counts their last one,
and a character keeps its low byte. -/
def bytes (l : Leader) : Bytes :=
  Decimal.digits 5 l.recordLength ++
    [l.status, l.recordType, l.level, l.controlType, l.coding].map lowByte ++
    [Decimal.digit l.indicatorCount, Decimal.digit l.subfieldCodeCount] ++
    Decimal.digits 5 l.baseAddress ++
    [l.encodingLevel, l.catalogingForm, l.multipartLevel, l.entryMap.lengthWidth,
      l.entryMap.offsetWidth, l.entryMap.implementationWidth, l.entryMap.undefined].map lowByte

def text (l : Leader) : String := Utf8.decodeLossy l.bytes

def recordClass (l : Leader) : RecordClass :=
  if l.recordType = 'z' then .authority
  else if l.recordType = 'w' then .classification
  else if "acdefgijkmoprt".toList.contains l.recordType then .bibliographic
  else .unknown

end Leader

end Marc21
