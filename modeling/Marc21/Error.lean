import Marc21.Tag.Repeatable
import Marc21.Leader
import Marc21.Xml.Fault
import Marc21.Xml.Event

/-!
Everything that can go wrong with records, by cause. Each cause has its own constructor, and the
wording of all of them is in the `message` functions.
-/

namespace Marc21

/-- What a physical record's directory can have wrong with it. -/
inductive DirectoryFault where
  | ragged (length : Nat)
  | badTag (text : String)
  | notNumeric (entry : String)
  | outsideData (tag : Tag) (offset length available : Nat)
  deriving DecidableEq, Repr

def DirectoryFault.message : DirectoryFault → String
  | .ragged length => s!"directory length {length} is not a multiple of 12"
  | .badTag text => s!"invalid tag {Quoted.text text} in directory"
  | .notNumeric entry =>
    s!"non-numeric length or offset in directory entry {Quoted.text entry}"
  | .outsideData tag offset length available =>
    s!"field {tag.text} (offset {offset}, length {length}) lies outside the " ++
      s!"{available}-byte data segment"

/-- A defect in the structure of a record. -/
inductive Flaw where
  | noControlNumber
  | shortContents (tag : Tag)
  | noDelimiter (tag : Tag)
  | noCode (tag : Tag)
  deriving DecidableEq, Repr

def Flaw.message : Flaw → String
  | .noControlNumber => "001 field is missing!"
  | .shortContents tag => s!"field contents are too small (< 5 characters)! (tag: {tag.text})"
  | .noDelimiter tag => s!"subfield does not start with 0x1F! (tag: {tag.text})"
  | .noCode tag => s!"subfield is missing a subfield code! (tag: {tag.text})"

/-- Why a writer does not take a record. -/
inductive Refusal where
  | flawed (flaw : Flaw) (controlNumber : String)
  | writerFinished
  deriving DecidableEq, Repr

def Refusal.message : Refusal → String
  | .flawed flaw controlNumber => s!"{flaw.message} (control number: {controlNumber})"
  | .writerFinished => "Cannot write to a finished writer"

/-- Why the type of a file stands in the way. Each constructor carries the path. -/
inductive FileTypeFault where
  | unknown (path : String)
  | xmlAppend (path : String)
  | xmlPositioning (path : String)
  | xmlLockedWrite (path : String)
  | notAFile (path : String)
  deriving DecidableEq, Repr

def FileTypeFault.message : FileTypeFault → String
  | .unknown path => s!"can't guess the file type of \"{path}\""
  | .xmlAppend path => s!"can't append to MARC-XML file \"{path}\""
  | .xmlPositioning path => s!"\"{path}\" is MARC-XML; only rewind is supported"
  | .xmlLockedWrite path => s!"locked writes need a binary file, \"{path}\" is MARC-XML"
  | .notAFile path => s!"\"{path}\" is not a file"

/-- What the place expects at which an event is out of order. -/
inductive Expectation where
  | root
  | member
  | opening (name : String)
  | closing (name : String)
  | textOrClosing (name : String)
  | fieldOrEnd
  | subfieldOrEnd
  | endOfDocument
  deriving DecidableEq, Repr

def Expectation.description : Expectation → String
  | .root => "<collection> or <record>"
  | .member => "<record> or </collection>"
  | .opening name => s!"<{name}>"
  | .closing name => s!"</{name}>"
  | .textOrClosing name => s!"text or </{name}>"
  | .fieldOrEnd => "<controlfield>, <datafield> or </record>"
  | .subfieldOrEnd => "<subfield> or </datafield>"
  | .endOfDocument => "end of document"

/-- What keeps an XML document from being a collection of records. -/
inductive DocumentFault where
  | markup (fault : Xml.Fault)
  | unexpected (wanted : Expectation) (found : Xml.Event)
  | foreignNamespace (key value : String)
  | attributeMissing (element key : String)
  | attributeNotSingle (key value : String)
  | badTag (text element : String)
  | badLeader (text : String)
  | leader (fault : LeaderFault)
  | controlFieldLate
  deriving DecidableEq, Repr

def DocumentFault.message : DocumentFault → String
  | .markup fault => fault.message
  | .unexpected wanted found => s!"expected {wanted.description}, found {found.description}"
  | .foreignNamespace key value => s!"unsupported namespace {key}=\"{value}\""
  | .attributeMissing element key => s!"<{element}> is missing the \"{key}\" attribute"
  | .attributeNotSingle key value =>
    s!"attribute \"{key}\" must be a single character, found {Quoted.text value}"
  | .badTag text element => s!"invalid tag {Quoted.text text} on <{element}>"
  | .badLeader text => s!"leader must be 24 ASCII characters, found {Quoted.text text}"
  | .leader fault => s!"Malformed leader: {fault.message}"
  | .controlFieldLate => "<controlfield> after <datafield>"

/-- A failure of the stream or file below. One that the system reports has the system's words. -/
inductive StreamFailure where
  | system (reason : String)
  | reported (reason : String)
  | inputLost
  | noInput
  deriving DecidableEq, Repr

def StreamFailure.message : StreamFailure → String
  | .system reason => reason
  | .reported reason => reason
  | .inputLost => "XML reader lost its input after a failed rewind"
  | .noInput => "XML reader has no input"

inductive MarcError where
  | malformedLeader (fault : LeaderFault)
  | malformedDirectory (fault : DirectoryFault)
  | malformedXml (line : Nat) (fault : DocumentFault)
  | unknownTag (tag : Tag)
  | invalidTag (text : String)
  | fieldTooLong (tag : Tag) (length : Nat)
  | invalidRecord (refusal : Refusal)
  | unsupportedFileType (fault : FileTypeFault)
  | streamFailed (failure : StreamFailure)
  deriving DecidableEq, Repr

def MarcError.message : MarcError → String
  | .malformedLeader fault => s!"Malformed leader: {fault.message}"
  | .malformedDirectory fault => s!"Malformed directory: {fault.message}"
  | .malformedXml line fault => s!"Malformed MARC-XML on line {line}: {fault.message}"
  | .unknownTag tag => s!"Tag {tag.text} is not in the repeatable-field table"
  | .invalidTag text => s!"Invalid tag: {Quoted.text text}"
  | .fieldTooLong tag length =>
    s!"Field {tag.text} is too long for the binary format ({length} bytes)"
  | .invalidRecord refusal => s!"Invalid record: {refusal.message}"
  | .unsupportedFileType fault => s!"Unsupported file type: {fault.message}"
  | .streamFailed failure => s!"Stream I/O error: {failure.message}"

def Tag.parseBytes (bs : Bytes) : Except MarcError Tag :=
  match Tag.ofBytes? bs with
  | some t => .ok t
  | none => .error (.invalidTag (Utf8.decodeLossy bs))

def Tag.parse (s : String) : Except MarcError Tag :=
  match Tag.ofString? s with
  | some t => .ok t
  | none => .error (.invalidTag s)

def Tag.isRepeatable (t : Tag) : Except MarcError Bool :=
  match t.repeatable? with
  | some b => .ok b
  | none => .error (.unknownTag t)

end Marc21
