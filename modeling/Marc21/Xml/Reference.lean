import Marc21.Xml.Fault

/-!
Escaped text: five characters are written as references by name. Reading also takes references by
number. Offsets in faults count the bytes of the text.
-/

namespace Marc21.Xml.Reference

def named : List (String × Char) :=
  [("lt", '<'), ("gt", '>'), ("amp", '&'), ("apos", '\''), ("quot", '"')]

def escapeChar (c : Char) : List Char :=
  match named.find? (·.2 == c) with
  | some (name, _) => '&' :: name.toList ++ [';']
  | none => [c]

def escape (s : String) : String := String.ofList (s.toList.flatMap escapeChar)

private def decimalValue (bs : Bytes) : Except Fault Nat :=
  if bs.length > 7 then .error .decimalTooLong
  else bs.foldlM (fun n b => if isDigit b then .ok (n * 10 + (b.toNat - 0x30))
    else .error (.notDecimal b)) 0

def hexadecimalDigit? (b : UInt8) : Option Nat :=
  if isDigit b then some (b.toNat - 0x30)
  else if 0x61 ≤ b ∧ b ≤ 0x66 then some (b.toNat - 0x57)
  else if 0x41 ≤ b ∧ b ≤ 0x46 then some (b.toNat - 0x37)
  else none

private def hexadecimalValue (bs : Bytes) : Except Fault Nat :=
  if bs.length > 6 then .error .hexadecimalTooLong
  else bs.foldlM (fun n b => match hexadecimalDigit? b with
    | some d => .ok (n * 16 + d)
    | none => .error (.notHexadecimal b)) 0

/-- The number in a reference by number, after its `#`. -/
def numberValue : List Char → Except Fault Nat
  | 'x' :: digits => hexadecimalValue (digits.flatMap Utf8.encodeChar)
  | digits => decimalValue (digits.flatMap Utf8.encodeChar)

/-- The character that stands for what is between an `&` at `start` and a `;` at `stop`. -/
def resolve (start stop : Nat) (name : List Char) : Except Fault Char :=
  match name with
  | '#' :: number => do
    let n ← numberValue number
    if n = 0 then .error (.referenceNull start stop)
    else if n.isValidChar then .ok (Char.ofNat n)
    else .error (.notCodePoint n)
  | _ =>
    match named.find? (·.1.toList == name) with
    | some (_, c) => .ok c
    | none => .error (.referenceUnknown (start + 1) stop (String.ofList name))

/-- Reads on from byte `index` of a text of `total` bytes. `pending` is the reference that is open,
with its offset, and `out` what came so far; both are in reverse. -/
def unescapeFrom (total : Nat) :
    List Char → Nat → Option (Nat × List Char) → List Char → Except Fault (List Char)
  | [], _, none, out => .ok out.reverse
  | [], _, some (start, _), _ => .error (.referenceUnended start total)
  | c :: cs, index, none, out =>
    if c = '&' then unescapeFrom total cs (index + c.utf8Size) (some (index, [])) out
    else unescapeFrom total cs (index + c.utf8Size) none (c :: out)
  | c :: cs, index, some (start, name), out =>
    if c = '&' then .error (.referenceUnended start total)
    else if c = ';' then
      match resolve start index name.reverse with
      | .ok d => unescapeFrom total cs (index + c.utf8Size) none (d :: out)
      | .error fault => .error fault
    else unescapeFrom total cs (index + c.utf8Size) (some (start, c :: name)) out

def unescape (s : String) : Except Fault String :=
  (unescapeFrom s.utf8ByteSize s.toList 0 none []).map String.ofList

/-- The text that escaped bytes stand for. -/
def read (bs : Bytes) : Except Fault String :=
  match Utf8.decode bs with
  | .ok s => unescape s
  | .error fault => .error (.notUtf8 fault)

end Marc21.Xml.Reference
