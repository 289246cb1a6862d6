import Marc21.File.Tree
import Marc21.Format.Reader
import Marc21.Notice

/-!
Telling the format of a file by the first bytes in it or by its name. A binary record opens with its
length, its status and its type, and only some statuses go with a type.
-/

namespace Marc21

/-- The record statuses that go with a type of record. -/
def statusesOf (type : Char) : String :=
  match type with
  | 'z' => "acdnosx"
  | 'w' => "acdn"
  | 'q' | 'u' | 'v' | 'x' | 'y' => "cdn"
  | 'b' | 'h' | 'l' | 'n' | 's' => ""
  | _ => "acdnp"

namespace RecordFormat

/-- How much of a file is looked at. -/
def openingLength : Nat := 8

def ofExtension? (path : String) : Option RecordFormat := do
  let extension := (← Path.extension? path).toLower
  if ["mrc", "marc", "raw"].contains extension then some .binary
  else if extension = "xml" then some .xml
  else none

/-- The format of a file that starts with the given bytes. -/
def ofOpening? (bs : Bytes) : Option RecordFormat :=
  if bs.head? = some 0x3C then some .xml
  else
    let length := bs.take 5
    match bs.drop 5, Utf8.pieces (bs.drop 6) with
    | status :: _, .scalar type :: _ =>
      if length.all isDigit ∧ (Utf8.encode (statusesOf type)).contains status then some .binary
      else none
    | _, _ => none

end RecordFormat

namespace FileTree

/-- What the contents of a file say about its format, if there is a file. -/
def formatInside? (t : FileTree) (path : String) :
    Except MarcError (Option RecordFormat) × List Notice :=
  if !t.has path then (.ok none, [])
  else match t.read path with
    | .error failure => (.error (.streamFailed failure), [])
    | .ok content =>
      let start := (content.extract 0 RecordFormat.openingLength).toList
      (.ok (RecordFormat.ofOpening? start), if start = [] then [.fileEmpty path] else [])

def formatByName (path : String) : Except MarcError RecordFormat :=
  match RecordFormat.ofExtension? path with
  | some f => .ok f
  | none => .error (.unsupportedFileType (.unknown path))

/-- The format of a file. If the contents are looked at and tell it, the name does not count. -/
def guessFormat (t : FileTree) (path : String) (look : Bool) :
    Except MarcError RecordFormat × List Notice :=
  if !look then (formatByName path, [])
  else match t.formatInside? path with
    | (.error e, notices) => (.error e, notices)
    | (.ok (some f), notices) => (.ok f, notices)
    | (.ok none, notices) => (formatByName path, notices)

end FileTree

end Marc21
