import Marc21.Xml.Event
import Marc21.Xml.Reference

/-!
Writing XML. A document is a list of marks: the declaration, tags and text. A layout writes each mark
as a few pieces of bytes. If it indents, a line break and the indentation of the depth come before every
tag, unless the mark before was text or there was none.
-/

namespace Marc21.Xml

inductive Mark where
  | declaration
  | start (name : String) (attributes : Attributes)
  | text (content : String)
  | stop (name : String)
  deriving DecidableEq, Repr

/-- The spaces per level if there is indentation, the spaces now, and whether a tag needs a new line. -/
structure Layout where
  indent : Option Nat
  depth : Nat
  breaks : Bool
  deriving DecidableEq, Repr

def Mark.attributeText (as : Attributes) : String :=
  String.join (as.map fun a => " " ++ a.1 ++ "=\"" ++ Reference.escape a.2 ++ "\"")

/-- What stands between and outside the brackets of a tag. -/
def tagPieces (before inner after : String) : List Bytes :=
  [before, inner, after].map Utf8.encode

namespace Layout

def compact : Layout := ⟨none, 0, false⟩

def indented (spaces : Nat) : Layout := ⟨some spaces, 0, false⟩

def lineBreak (l : Layout) : List Bytes :=
  if l.indent.isSome ∧ l.breaks then [[0x0A], List.replicate l.depth 0x20] else []

/-- Writes a mark: its pieces, and the layout after it. -/
def write (l : Layout) (m : Mark) : List Bytes × Layout :=
  let width := l.indent.getD 0
  match m with
  | .declaration =>
    (l.lineBreak ++ tagPieces "<?" "xml version=\"1.0\" encoding=\"UTF-8\"" "?>",
      { l with breaks := true })
  | .start name as =>
    (l.lineBreak ++ tagPieces "<" (name ++ Mark.attributeText as) ">",
      { l with depth := l.depth + width, breaks := true })
  | .text content => ([Utf8.encode (Reference.escape content)], { l with breaks := false })
  | .stop name =>
    let l := { l with depth := l.depth - width }
    (l.lineBreak ++ tagPieces "</" name ">", { l with breaks := true })

end Layout

end Marc21.Xml
