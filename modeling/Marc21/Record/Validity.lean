import Marc21.Record.Basic
import Marc21.Notice

/-!
The structure that a record must have to be written in binary form: it starts with `001`, and every
data field has two indicators and then nothing but runs of a delimiter, a code and a value. Runs are
checked byte by byte, so a code is the one byte after a delimiter.
-/

namespace Marc21

/-- Where a check stands among the bytes after the indicators. -/
inductive RunPlace where
  | start
  | code
  | value (code : UInt8) (isEmpty : Bool)
  | stray
  deriving DecidableEq, Repr

/-- A check's place, and the codes of empty subfields so far, latest first. -/
structure RunCheck where
  place : RunPlace
  empties : List UInt8
  deriving DecidableEq, Repr

namespace RunCheck

def delimiterByte : UInt8 := 0x1F

def step (c : RunCheck) (b : UInt8) : RunCheck :=
  match c.place with
  | .start => { c with place := if b = delimiterByte then .code else .stray }
  | .code => { c with place := .value b true }
  | .value code isEmpty =>
    if b = delimiterByte then ⟨.code, if isEmpty then code :: c.empties else c.empties⟩
    else { c with place := .value code false }
  | .stray => c

def finish (c : RunCheck) : RunCheck :=
  match c.place with
  | .value code true => ⟨.value code false, code :: c.empties⟩
  | _ => c

def ofContents (contents : String) : RunCheck :=
  (((contents.toList.drop 2).flatMap Utf8.encodeChar).foldl step ⟨.start, []⟩).finish

end RunCheck

namespace Field

/-- The defect of a data field, if it has one. -/
def flaw? (f : Field) : Option Flaw :=
  if f.contents.length < 5 then some (.shortContents f.tag)
  else match (RunCheck.ofContents f.contents).place with
    | .stray => some (.noDelimiter f.tag)
    | .code => some (.noCode f.tag)
    | .start | .value .. => none

def validityNotices (f : Field) : List Notice :=
  if f.contents.length < 5 then []
  else (RunCheck.ofContents f.contents).empties.reverse.map (Notice.subfieldEmpty f.tag)

end Field

namespace Record

def dataFields (r : Record) : List Field := r.fields.filter (!·.isControl)

/-- The first defect of a record. -/
def flaw? (r : Record) : Option Flaw :=
  if r.controlNumber?.isNone then some .noControlNumber else r.dataFields.findSome? Field.flaw?

def isValid (r : Record) : Bool := r.flaw?.isNone

/-- Empty subfields in the data fields up to the first defect. -/
def validityNotices (r : Record) : List Notice :=
  if r.controlNumber?.isNone then []
  else
    let sound := r.dataFields.takeWhile (·.flaw?.isNone)
    ((sound ++ (r.dataFields.drop sound.length).take 1).flatMap Field.validityNotices)

end Record

end Marc21
