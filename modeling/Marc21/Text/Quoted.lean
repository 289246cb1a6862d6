import Marc21.Text.Printable

/-!
Quoted text for messages. A text stands between double quotes and a single character between single
ones. A backslash comes before the quote in use, before itself and before the letter of a control
character that has one; any other character that is not printable is given by its number.
-/

namespace Marc21.Quoted

private def hexDigits (n : Nat) : String := String.ofList (Nat.toDigits 16 n)

def escape (quote c : Char) : String :=
  if c = '\x00' then "\\0"
  else if c = '\t' then "\\t"
  else if c = '\r' then "\\r"
  else if c = '\n' then "\\n"
  else if c = '\\' then "\\\\"
  else if c = quote then "\\" ++ c.toString
  else if Printable.isPrintable c then c.toString
  else "\\u\x7b" ++ hexDigits c.toNat ++ "\x7d"

def text (s : String) : String :=
  "\"" ++ String.join (s.toList.map (escape '"')) ++ "\""

def char (c : Char) : String := "'" ++ escape '\'' c ++ "'"

end Marc21.Quoted
