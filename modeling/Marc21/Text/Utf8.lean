/-!
UTF-8 over byte lists. `encode` writes the scalar values of a text. `pieces` reads any bytes at all:
one piece per scalar value, one per maximal ill-formed run, and one for a sequence that the end of
the input cuts short. The lossy and the strict reading are two views of these pieces.
-/

namespace Marc21

abbrev Bytes := List UInt8

namespace Utf8

def encodeChar (c : Char) : Bytes :=
  let n := c.toNat
  if n < 0x80 then [n.toUInt8]
  else if n < 0x800 then [(0xC0 + n / 64).toUInt8, (0x80 + n % 64).toUInt8]
  else if n < 0x10000 then
    [(0xE0 + n / 4096).toUInt8, (0x80 + n / 64 % 64).toUInt8, (0x80 + n % 64).toUInt8]
  else
    [(0xF0 + n / 262144).toUInt8, (0x80 + n / 4096 % 64).toUInt8, (0x80 + n / 64 % 64).toUInt8,
      (0x80 + n % 64).toUInt8]

def encode (s : String) : Bytes := s.toList.flatMap encodeChar

/-- What a reader makes of a stretch of bytes. -/
inductive Piece where
  | scalar (c : Char)
  | illFormed (length : Nat)
  | cutShort (length : Nat)
  deriving DecidableEq, Repr

/-- A multi-byte sequence that still lacks a continuation byte between `low` and `high`, and
`further` ones after it. -/
structure Sequence where
  further : Nat
  low : UInt8
  high : UInt8
  value : Nat
  seen : Nat
  deriving DecidableEq, Repr

/-- The sequence that a byte opens. The narrower bounds after `E0`, `ED`, `F0` and `F4` leave out
overlong forms, surrogates and values above `10FFFF`. -/
def opened (b : UInt8) : Option Sequence :=
  let n := b.toNat
  if n < 0xC2 then none
  else if n < 0xE0 then some ⟨0, 0x80, 0xBF, n - 0xC0, 1⟩
  else if n = 0xE0 then some ⟨1, 0xA0, 0xBF, 0, 1⟩
  else if n = 0xED then some ⟨1, 0x80, 0x9F, 0xD, 1⟩
  else if n < 0xF0 then some ⟨1, 0x80, 0xBF, n - 0xE0, 1⟩
  else if n = 0xF0 then some ⟨2, 0x90, 0xBF, 0, 1⟩
  else if n < 0xF4 then some ⟨2, 0x80, 0xBF, n - 0xF0, 1⟩
  else if n = 0xF4 then some ⟨2, 0x80, 0x8F, 4, 1⟩
  else none

/-- Pieces read so far, latest first, and the sequence that is open. -/
structure Scan where
  read : List Piece
  pending : Option Sequence
  deriving DecidableEq, Repr

def Scan.start : Scan := ⟨[], none⟩

/-- Reads `b` where no sequence is open. -/
def Scan.begin (done : List Piece) (b : UInt8) : Scan :=
  if b < 0x80 then ⟨.scalar (Char.ofNat b.toNat) :: done, none⟩
  else match opened b with
    | some s => ⟨done, some s⟩
    | none => ⟨.illFormed 1 :: done, none⟩

def Scan.step (s : Scan) (b : UInt8) : Scan :=
  match s.pending with
  | none => begin s.read b
  | some q =>
    if q.low ≤ b ∧ b ≤ q.high then
      let value := q.value * 64 + b.toNat % 64
      match q.further with
      | 0 => ⟨.scalar (Char.ofNat value) :: s.read, none⟩
      | more + 1 => ⟨s.read, some ⟨more, 0x80, 0xBF, value, q.seen + 1⟩⟩
    else begin (.illFormed q.seen :: s.read) b

def Scan.finish (s : Scan) : List Piece :=
  match s.pending with
  | none => s.read.reverse
  | some q => (.cutShort q.seen :: s.read).reverse

def pieces (bs : Bytes) : List Piece := (bs.foldl Scan.step Scan.start).finish

def Piece.isScalar : Piece → Bool
  | .scalar _ => true
  | _ => false

/-- A piece that is no scalar value is shown as U+FFFD. -/
def Piece.char : Piece → Char
  | .scalar c => c
  | _ => '\uFFFD'

def decodeLossy (bs : Bytes) : String := String.ofList ((pieces bs).map Piece.char)

def wellFormed (bs : Bytes) : Bool := (pieces bs).all Piece.isScalar

/-- Where strict reading stops: at an ill-formed run, or, without a length, in a sequence that the
input cuts short. -/
structure Fault where
  index : Nat
  length : Option Nat
  deriving DecidableEq, Repr

def Fault.message (f : Fault) : String :=
  match f.length with
  | some n => s!"invalid utf-8 sequence of {n} bytes from index {f.index}"
  | none => s!"incomplete utf-8 byte sequence from index {f.index}"

def decode (bs : Bytes) : Except Fault String :=
  let all := pieces bs
  let sound := (all.takeWhile Piece.isScalar).map Piece.char
  let index := (sound.flatMap encodeChar).length
  match all.dropWhile Piece.isScalar with
  | .illFormed n :: _ => .error ⟨index, some n⟩
  | .cutShort _ :: _ => .error ⟨index, none⟩
  | _ => .ok (String.ofList sound)

end Utf8

end Marc21
