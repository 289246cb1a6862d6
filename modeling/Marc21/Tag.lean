import Marc21.Text.Decimal

/-!
Field tags: three printable ASCII characters. Tags are ordered by their bytes, so digits come before
letters and local tags such as `LOK` after the numbered ones.
-/

namespace Marc21

/-- Printable ASCII other than the space. -/
def isGraphic (b : UInt8) : Bool := 0x21 ≤ b && b ≤ 0x7E

structure Tag where
  first : UInt8
  second : UInt8
  third : UInt8
  graphic : (isGraphic first && isGraphic second && isGraphic third) = true := by decide
  deriving DecidableEq, Repr

namespace Tag

def ofBytes? (bs : Bytes) : Option Tag :=
  match bs with
  | [a, b, c] =>
    if h : (isGraphic a && isGraphic b && isGraphic c) = true then some ⟨a, b, c, h⟩ else none
  | _ => none

def ofString? (s : String) : Option Tag := ofBytes? (Utf8.encode s)

def bytes (t : Tag) : Bytes := [t.first, t.second, t.third]

def text (t : Tag) : String := String.ofList (t.bytes.map fun b => Char.ofNat b.toNat)

/-- The place of a tag in the byte order. -/
def rank (t : Tag) : Nat := (t.first.toNat * 256 + t.second.toNat) * 256 + t.third.toNat

/-- A tag defined by a library for itself holds a `9` or something other than a digit. -/
def isLocal (t : Tag) : Bool := t.bytes.any fun b => !isDigit b || b == 0x39

/-- Fields tagged `000` to `00~` hold plain text. All others hold indicators and subfields. -/
def isControl (t : Tag) : Bool := t.first == 0x30 && t.second == 0x30

def controlNumber : Tag := { first := 0x30, second := 0x30, third := 0x31 }

def physicalDescriptionFixed : Tag := { first := 0x30, second := 0x30, third := 0x37 }

def fixedLengthData : Tag := { first := 0x30, second := 0x30, third := 0x38 }

def titleStatement : Tag := { first := 0x32, second := 0x34, third := 0x35 }

def physicalDescription : Tag := { first := 0x33, second := 0x30, third := 0x30 }

def carrierType : Tag := { first := 0x33, second := 0x33, third := 0x38 }

/-- `LOK`, the tag of fields that carry a library's own block. -/
def localBlock : Tag := { first := 0x4C, second := 0x4F, third := 0x4B }

@[simp] theorem ofBytes?_bytes (t : Tag) : ofBytes? t.bytes = some t := by
  simp [ofBytes?, bytes, t.graphic]

theorem bytes_of_ofBytes? {bs : Bytes} {t : Tag} (h : ofBytes? bs = some t) : t.bytes = bs := by
  unfold ofBytes? at h
  split at h
  · split at h
    · cases h
      rfl
    · cases h
  · cases h

@[simp] theorem length_bytes (t : Tag) : t.bytes.length = 3 := rfl

theorem eq_of_rank_eq {s t : Tag} (h : s.rank = t.rank) : s = t := by
  obtain ⟨a, b, c, _⟩ := s
  obtain ⟨d, e, f, _⟩ := t
  simp only [rank] at h
  have hc := c.toNat_lt
  have hf := f.toNat_lt
  have hb := b.toNat_lt
  have he := e.toNat_lt
  obtain rfl : a = d := UInt8.toNat_inj.1 (by omega)
  obtain rfl : b = e := UInt8.toNat_inj.1 (by omega)
  obtain rfl : c = f := UInt8.toNat_inj.1 (by omega)
  rfl

end Tag

end Marc21
