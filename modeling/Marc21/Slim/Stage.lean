import Marc21.Record.Basic
import Marc21.Notice

/-!
The MARC-XML grammar, one event at a time. A `Stage` is a place in a document together with what has
been read of the record there, and `Stage.step` says what an event makes of it: another stage, a whole
record, the end of the collection, or an error.
-/

namespace Marc21.Slim

open Xml (Event Attributes)

/-- The namespace of MARC-XML elements. -/
def slimNamespace : String := "http://www.loc.gov/MARC21/slim"

/-- A record of which the leader and some fields are there. `lone` is set if it is the whole document.
The fields are in reverse. -/
structure Draft where
  lone : Bool
  leader : Leader
  fields : List Field
  dataSeen : Bool
  deriving DecidableEq, Repr

/-- A data field whose start tag ended on the given line. The subfields are in reverse. -/
structure DataDraft where
  tag : Tag
  indicator1 : Char
  indicator2 : Char
  line : Nat
  subfields : Subfields
  deriving DecidableEq, Repr

/-- Lines are those on which the start tag of the element at hand ended. -/
inductive Stage where
  | root
  | member
  | leaderStart (lone : Bool)
  | leaderText (lone : Bool) (line : Nat)
  | leaderEnd (lone : Bool) (line : Nat) (text : String)
  | fields (draft : Draft)
  | controlText (draft : Draft) (tag : Tag) (line : Nat)
  | controlEnd (draft : Draft) (tag : Tag) (line : Nat) (text : String)
  | subfields (draft : Draft) (field : DataDraft)
  | subfieldText (draft : Draft) (field : DataDraft) (code : Char) (line : Nat)
  | subfieldEnd (draft : Draft) (field : DataDraft) (code : Char) (line : Nat) (text : String)
  | trailer (record : Record)
  deriving DecidableEq, Repr

inductive Verdict where
  | goOn (stage : Stage) (notices : List Notice)
  | record (r : Record) (lone : Bool)
  | closed
  | failed (error : MarcError)
  deriving DecidableEq, Repr

def Draft.finish (d : Draft) : Record := (Record.ofParts d.leader d.fields.reverse).sorted

/-- The two attributes that may bind the elements to a namespace have to bind them to the right one. -/
def checkNamespaces (as : Attributes) : Except DocumentFault Unit :=
  ["xmlns", "xmlns:marc"].forM fun key =>
    match as.value? key with
    | some value =>
      if value = slimNamespace then .ok () else .error (.foreignNamespace key value)
    | none => .ok ()

def required (as : Attributes) (element key : String) : Except DocumentFault String :=
  match as.value? key with
  | some value => .ok value
  | none => .error (.attributeMissing element key)

def requiredChar (as : Attributes) (element key : String) : Except DocumentFault Char := do
  let value ← required as element key
  match value.toList with
  | [c] => .ok c
  | _ => .error (.attributeNotSingle key value)

def requiredTag (as : Attributes) (element : String) : Except DocumentFault Tag := do
  let text ← required as element "tag"
  match Tag.ofString? text with
  | some tag => .ok tag
  | none => .error (.badTag text element)

/-- Blanks in the place of a number count as zeros. -/
def fillBlank (bs : Bytes) : Bytes :=
  if bs.all (· == 0x20) then List.replicate bs.length 0x30 else bs

def leaderOfText (text : String) : Except DocumentFault Leader :=
  let bs := Utf8.encode text
  if bs.length ≠ 24 ∨ !bs.all (· < 0x80) then .error (.badLeader text)
  else
    let filled := fillBlank (bs.take 5) ++ (bs.drop 5).take 7 ++ fillBlank ((bs.drop 12).take 5) ++
      bs.drop 17
    (Leader.ofBytes filled).mapError .leader

namespace Stage

/-- Within an element with text, all character data counts. Elsewhere white space is passed over. -/
def keepsText : Stage → Bool
  | .leaderText .. | .controlText .. | .subfieldText .. => true
  | _ => false

def answer (line : Nat) : Except DocumentFault Verdict → Verdict
  | .ok v => v
  | .error fault => .failed (.malformedXml line fault)

def unexpected (line : Nat) (wanted : Expectation) (found : Event) : Verdict :=
  .failed (.malformedXml line (.unexpected wanted found))

/-- What follows once the text of a leader is complete. -/
def withLeader (lone : Bool) (line : Nat) (text : String) : Verdict :=
  answer line do
    let leader ← leaderOfText text
    return .goOn (.fields ⟨lone, leader, [], false⟩) leader.notices

def withControlField (d : Draft) (tag : Tag) (line : Nat) (text : String) : Verdict :=
  if text = "" then .goOn (.fields d) [.controlFieldDropped tag line]
  else .goOn (.fields { d with fields := ⟨tag, text⟩ :: d.fields }) []

def withSubfield (d : Draft) (f : DataDraft) (code : Char) (line : Nat) (text : String) :
    Verdict :=
  if text = "" then .goOn (.subfields d f) [.subfieldDropped f.tag code line]
  else .goOn (.subfields d { f with subfields := ⟨code, text⟩ :: f.subfields }) []

def withDataField (d : Draft) (f : DataDraft) : Verdict :=
  if f.subfields = [] then .goOn (.fields d) [.dataFieldDropped f.tag f.line]
  else
    let field := Field.data f.tag f.indicator1 f.indicator2 f.subfields.reverse
    .goOn (.fields { d with fields := field :: d.fields }) []

def openField (d : Draft) (line : Nat) (event : Event) (name : String) (as : Attributes) :
    Verdict :=
  if name = "controlfield" then
    answer line do
      if d.dataSeen then throw .controlFieldLate
      return .goOn (.controlText d (← requiredTag as name) line) []
  else if name = "datafield" then
    answer line do
      let tag ← requiredTag as name
      let indicator1 ← requiredChar as name "ind1"
      let indicator2 ← requiredChar as name "ind2"
      return .goOn (.subfields { d with dataSeen := true } ⟨tag, indicator1, indicator2, line, []⟩) []
  else unexpected line .fieldOrEnd event

/-- What an event that ends on the given line makes of a stage, if the stage does not pass it over. -/
def react (stage : Stage) (line : Nat) (event : Event) : Verdict :=
  match stage, event with
  | .root, .opening name as =>
    if name = "collection" then
      answer line do
        checkNamespaces as
        return .goOn .member []
    else if name = "record" then
      answer line do
        checkNamespaces as
        return .goOn (.leaderStart true) []
    else unexpected line .root event
  | .root, _ => unexpected line .root event
  | .member, .opening name as =>
    if name = "record" then
      answer line do
        checkNamespaces as
        return .goOn (.leaderStart false) []
    else unexpected line .member event
  | .member, .closing name =>
    if name = "collection" then .closed else unexpected line .member event
  | .member, _ => unexpected line .member event
  | .leaderStart lone, .opening name _ =>
    if name = "leader" then .goOn (.leaderText lone line) []
    else unexpected line (.opening "leader") event
  | .leaderStart _, _ => unexpected line (.opening "leader") event
  | .leaderText lone start, .text s => .goOn (.leaderEnd lone start s) []
  | .leaderText lone start, .closing name =>
    if name = "leader" then withLeader lone start ""
    else unexpected line (.textOrClosing "leader") event
  | .leaderText .., _ => unexpected line (.textOrClosing "leader") event
  | .leaderEnd lone start s, .closing name =>
    if name = "leader" then withLeader lone start s else unexpected line (.closing "leader") event
  | .leaderEnd .., _ => unexpected line (.closing "leader") event
  | .fields d, .opening name as => openField d line event name as
  | .fields d, .closing name =>
    if name = "record" then
      if d.lone then .goOn (.trailer d.finish) [] else .record d.finish false
    else unexpected line .fieldOrEnd event
  | .fields _, _ => unexpected line .fieldOrEnd event
  | .controlText d tag start, .text s => .goOn (.controlEnd d tag start s) []
  | .controlText d tag start, .closing name =>
    if name = "controlfield" then withControlField d tag start ""
    else unexpected line (.textOrClosing "controlfield") event
  | .controlText .., _ => unexpected line (.textOrClosing "controlfield") event
  | .controlEnd d tag start s, .closing name =>
    if name = "controlfield" then withControlField d tag start s
    else unexpected line (.closing "controlfield") event
  | .controlEnd .., _ => unexpected line (.closing "controlfield") event
  | .subfields d f, .opening name as =>
    if name = "subfield" then
      answer line do
        return .goOn (.subfieldText d f (← requiredChar as name "code") line) []
    else unexpected line .subfieldOrEnd event
  | .subfields d f, .closing name =>
    if name = "datafield" then withDataField d f else unexpected line .subfieldOrEnd event
  | .subfields .., _ => unexpected line .subfieldOrEnd event
  | .subfieldText d f code start, .text s => .goOn (.subfieldEnd d f code start s) []
  | .subfieldText d f code start, .closing name =>
    if name = "subfield" then withSubfield d f code start ""
    else unexpected line (.textOrClosing "subfield") event
  | .subfieldText .., _ => unexpected line (.textOrClosing "subfield") event
  | .subfieldEnd d f code start s, .closing name =>
    if name = "subfield" then withSubfield d f code start s
    else unexpected line (.closing "subfield") event
  | .subfieldEnd .., _ => unexpected line (.closing "subfield") event
  | .trailer r, .endOfDocument => .record r true
  | .trailer _, _ => unexpected line .endOfDocument event

def step (stage : Stage) (line : Nat) (event : Event) : Verdict :=
  if event.isSeparator ∧ !stage.keepsText then .goOn stage [] else stage.react line event

/-- No stage goes on behind the end of the document. -/
theorem step_endOfDocument (stage : Stage) (line : Nat) (next : Stage) (notices : List Notice) :
    stage.step line .endOfDocument ≠ .goOn next notices := by
  cases stage <;> simp [step, Event.isSeparator, react, unexpected]

/-- Only a record that is the whole document waits for the end of it. -/
theorem step_endOfDocument_record {stage : Stage} {line : Nat} {r : Record} {lone : Bool}
    (h : stage.step line .endOfDocument = .record r lone) : lone = true := by
  cases stage <;> simp_all [step, Event.isSeparator, react, unexpected]

end Stage

end Marc21.Slim
