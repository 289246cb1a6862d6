import Marc21.Error

/-!
Notices: what reading, checking and writing report beside their results. Operations return them in the
order in which they arise. A warning tells of input that was accepted with a loss or a doubt.
-/

namespace Marc21

inductive Severity where
  | warning
  | detail
  deriving DecidableEq, Repr

inductive Notice where
  | indicatorCount (count : Nat)
  | subfieldCodeCount (count : Nat)
  | entryMap (text : String)
  | bytesReplaced (tag : Tag)
  | subfieldEmpty (tag : Tag) (code : UInt8)
  | controlFieldDropped (tag : Tag) (line : Nat)
  | dataFieldDropped (tag : Tag) (line : Nat)
  | subfieldDropped (tag : Tag) (code : Char) (line : Nat)
  | fileEmpty (path : String)
  | collectionUnclosed (error : MarcError)
  | chunkMerged (controlNumber : String) (fields : Nat)
  | recordSplit (controlNumber : String) (chunks : Nat)
  | duplicatesRemoved (path : String) (dropped : Nat)
  deriving DecidableEq, Repr

namespace Notice

def severity : Notice → Severity
  | .chunkMerged .. | .recordSplit .. | .duplicatesRemoved .. => .detail
  | _ => .warning

def message : Notice → String
  | .indicatorCount _ => "non-standard indicator count in leader"
  | .subfieldCodeCount _ => "non-standard subfield code length in leader"
  | .entryMap _ => "non-standard entry map in leader"
  | .bytesReplaced _ => "field contents are not valid UTF-8, invalid bytes replaced"
  | .subfieldEmpty .. => "subfield is empty"
  | .controlFieldDropped .. => "dropping empty control field"
  | .dataFieldDropped .. => "dropping data field without subfields"
  | .subfieldDropped .. => "dropping empty subfield"
  | .fileEmpty _ => "empty file, falling back to its extension"
  | .collectionUnclosed _ => "failed to close MARC-XML collection"
  | .chunkMerged .. => "merging continuation chunk"
  | .recordSplit .. => "split oversized record"
  | .duplicatesRemoved .. => "removed duplicate control numbers"

/-- The particulars of a notice by name. -/
def particulars : Notice → List (String × String)
  | .indicatorCount count => [("indicator_count", toString count)]
  | .subfieldCodeCount count => [("subfield_code_count", toString count)]
  | .entryMap text => [("entry_map", text)]
  | .bytesReplaced tag => [("tag", tag.text)]
  | .subfieldEmpty tag code => [("tag", tag.text), ("code", (Char.ofNat code.toNat).toString)]
  | .controlFieldDropped tag line => [("tag", tag.text), ("line", toString line)]
  | .dataFieldDropped tag line => [("tag", tag.text), ("line", toString line)]
  | .subfieldDropped tag code line =>
    [("tag", tag.text), ("code", code.toString), ("line", toString line)]
  | .fileEmpty path => [("path", path)]
  | .collectionUnclosed error => [("error", error.message)]
  | .chunkMerged controlNumber fields =>
    [("control_number", controlNumber), ("fields", toString fields)]
  | .recordSplit controlNumber chunks =>
    [("control_number", controlNumber), ("chunks", toString chunks)]
  | .duplicatesRemoved path dropped => [("path", path), ("dropped", toString dropped)]

end Notice

/-- What an operation on a state comes to: its result, the state after it, and its notices. -/
structure Outcome (σ α : Type) where
  result : Except MarcError α
  state : σ
  notices : List Notice := []

/-- What the numeric positions and the entry map of a leader give reason to report. -/
def Leader.notices (l : Leader) : List Notice :=
  let map := [l.entryMap.lengthWidth, l.entryMap.offsetWidth, l.entryMap.implementationWidth]
  (if l.indicatorCount = 2 then [] else [.indicatorCount l.indicatorCount]) ++
  (if l.subfieldCodeCount = 2 then [] else [.subfieldCodeCount l.subfieldCodeCount]) ++
  (if map = ['4', '5', '0'] then [] else
    [.entryMap (String.ofList (map ++ [l.entryMap.undefined]))])

end Marc21
