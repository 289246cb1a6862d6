import Marc21.Text.Decimal
import Marc21.Text.Quoted

/-!
What makes a byte stream unreadable as XML, below the level of elements: markup that does not end, end
tags that do not match, badly written attributes, and references to characters that do not exist.
Positions count bytes from the start of the tag, text or value at fault.
-/

namespace Marc21.Xml

inductive Construct where
  | cdata
  | comment
  | doctype
  | declaration
  | instruction
  deriving DecidableEq, Repr

inductive Fault where
  | unended (what : Construct)
  | unknownDeclaration (byte : UInt8)
  | emptyDoctype
  | mismatchedEnd (wanted found : String)
  | keyWithoutEquals (position : Nat)
  | valueMissing (position : Nat)
  | valueUnquoted (position : Nat)
  | quoteMissing (position : Nat) (quote : UInt8)
  | duplicateAttribute (position previous : Nat)
  | notUtf8 (fault : Utf8.Fault)
  | referenceUnended (start stop : Nat)
  | referenceUnknown (start stop : Nat) (name : String)
  | referenceNull (start stop : Nat)
  | decimalTooLong
  | hexadecimalTooLong
  | notDecimal (byte : UInt8)
  | notHexadecimal (byte : UInt8)
  | notCodePoint (number : Nat)
  | unreadable (reason : String)
  deriving DecidableEq, Repr

def Construct.name : Construct → String
  | .cdata => "CData"
  | .comment => "Comment"
  | .doctype => "DOCTYPE"
  | .declaration => "Bang"
  | .instruction => "XmlDecl"

private def byteText (b : UInt8) : String := (Char.ofNat b.toNat).toString

private def inEscape (start stop : Nat) (what : String) : String :=
  s!"Error while escaping character at range {start}..{stop}: {what}"

def Fault.message : Fault → String
  | .unended what => s!"Unexpected EOF during reading {what.name}"
  | .unknownDeclaration byte =>
    "Only Comment (`--`), CDATA (`[CDATA[`) and DOCTYPE (`DOCTYPE`) nodes can start with a '!', " ++
      s!"but symbol `{byteText byte}` found"
  | .emptyDoctype => "DOCTYPE declaration must not be empty"
  | .mismatchedEnd wanted found => s!"Expecting </{wanted}> found </{found}>"
  | .keyWithoutEquals position =>
    s!"position {position}: attribute key must be directly followed by `=` or space"
  | .valueMissing position => s!"position {position}: `=` must be followed by an attribute value"
  | .valueUnquoted position =>
    s!"position {position}: attribute value must be enclosed in `\"` or `'`"
  | .quoteMissing position quote =>
    s!"position {position}: missing closing quote `{byteText quote}` in attribute value"
  | .duplicateAttribute position previous =>
    s!"position {position}: duplicated attribute, previous declaration at position {previous}"
  | .notUtf8 fault => s!"Malformed UTF-8 input: {fault.message}"
  | .referenceUnended start stop => inEscape start stop "Cannot find ';' after '&'"
  | .referenceUnknown start stop name =>
    inEscape start stop s!"Unrecognized escape symbol: {Quoted.text name}"
  | .referenceNull start stop => inEscape start stop "Null character entity not allowed"
  | .decimalTooLong => "Cannot convert decimal to utf8"
  | .hexadecimalTooLong => "Cannot convert hexadecimal to utf8"
  | .notDecimal byte => s!"'{byteText byte}' is not a valid decimal character"
  | .notHexadecimal byte => s!"'{byteText byte}' is not a valid hexadecimal character"
  | .notCodePoint number => s!"'{number}' is not a valid codepoint"
  | .unreadable reason => s!"I/O error: {reason}"

end Marc21.Xml
