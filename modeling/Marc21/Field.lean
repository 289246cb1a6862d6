import Marc21.Tag
import Marc21.Subfields

/-!
Fields: a tag and its contents. The contents of a control field are plain text. Those of a data field
are two indicator characters and encoded subfields, although nothing forces them to be.
-/

namespace Marc21

structure Field where
  tag : Tag
  contents : String
  deriving DecidableEq, Repr

namespace Field

def data (tag : Tag) (indicator1 indicator2 : Char) (ss : Subfields) : Field :=
  ⟨tag, String.ofList (indicator1 :: indicator2 :: ss.encode)⟩

def isControl (f : Field) : Bool := f.tag.isControl

def indicator1? (f : Field) : Option Char := f.contents.toList[0]?

def indicator2? (f : Field) : Option Char := f.contents.toList[1]?

def subfields (f : Field) : Subfields := Subfields.ofContents f.contents

/-- The value of the first subfield with a code, found among the runs without decoding them. -/
def firstSubfield? (f : Field) (code : Char) : Option String :=
  (delimitedRuns (f.contents.toList.drop 2)).2.findSome? fun
    | [] => none
    | c :: value => if c = code then some (String.ofList value) else none

/-- Other subfields in the place of the old ones. A missing indicator becomes a blank. -/
def withSubfields (f : Field) (ss : Subfields) : Field :=
  data f.tag (f.indicator1?.getD ' ') (f.indicator2?.getD ' ') ss

def addSubfield (f : Field) (code : Char) (value : String) : Field :=
  f.withSubfields (f.subfields.add code value)

/-- Gives the first subfield of a code another value, or adds one where its code belongs. -/
def insertOrReplace (f : Field) (code : Char) (value : String) : Field :=
  let ss := f.subfields
  f.withSubfields ((ss.replaceFirst? code value).getD (ss.add code value))

/-- Removes every subfield with a code. A control field has none and stays as it is. -/
def deleteSubfields (f : Field) (code : Char) : Field :=
  if f.isControl then f else f.withSubfields (f.subfields.deleteAll code)

/-- Bytes that a field takes up in a binary record: its directory entry of 12 bytes, its contents and
a terminator. -/
def size (f : Field) : Nat := 12 + f.contents.utf8ByteSize + 1

/-- The place of a field in a record: `001` first, then by tag. -/
def rank (f : Field) : Nat := if f.tag = Tag.controlNumber then 0 else f.tag.rank + 1

/-- By tag, then by contents. -/
def compare (f g : Field) : Ordering :=
  (Ord.compare f.tag.rank g.tag.rank).then
    (if f.contents < g.contents then .lt else if f.contents = g.contents then .eq else .gt)

end Field

end Marc21
