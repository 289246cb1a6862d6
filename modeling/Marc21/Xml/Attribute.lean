import Marc21.Xml.Event
import Marc21.Xml.Reference

/-!
The attributes of a tag. Each is a key, an equals sign and a quoted value. White space may stand around
each part, and none is needed between attributes. Keys may not repeat.
-/

namespace Marc21.Xml

/-- Space, tab, carriage return and line feed. -/
def isSpace (b : UInt8) : Bool := b == 0x20 || b == 0x09 || b == 0x0D || b == 0x0A

namespace Attribute

def equals : UInt8 := 0x3D

/-- The part of a tag behind its offset `position`. -/
structure Cursor where
  position : Nat
  rest : Bytes

namespace Cursor

/-- Passes over the bytes in a class, and gives them. -/
def span (p : UInt8 → Bool) (c : Cursor) : Bytes × Cursor :=
  let passed := c.rest.takeWhile p
  (passed, ⟨c.position + passed.length, c.rest.dropWhile p⟩)

def skipSpace (c : Cursor) : Cursor := (c.span isSpace).2

theorem length_rest_span_le (p : UInt8 → Bool) (c : Cursor) :
    (c.span p).2.rest.length ≤ c.rest.length :=
  (List.dropWhile_sublist p).length_le

end Cursor

/-- Reads a key, which is behind its first byte at the cursor, and the equals sign after it. -/
def key (first : UInt8) (c : Cursor) : Except Fault (Bytes × Cursor) :=
  let (more, c) := c.span fun b => b != equals && !isSpace b
  let c := c.skipSpace
  match c.rest with
  | b :: rest =>
    if b = equals then .ok (first :: more, ⟨c.position + 1, rest⟩)
    else .error (.keyWithoutEquals c.position)
  | [] => .error (.keyWithoutEquals c.position)

/-- Reads a quoted value. -/
def value (c : Cursor) : Except Fault (Bytes × Cursor) :=
  let c := c.skipSpace
  match c.rest with
  | [] => .error (.valueMissing c.position)
  | quote :: rest =>
    if quote = 0x22 ∨ quote = 0x27 then
      let (text, c) := Cursor.span (· != quote) ⟨c.position + 1, rest⟩
      match c.rest with
      | _ :: rest => .ok (text, ⟨c.position + 1, rest⟩)
      | [] => .error (.quoteMissing c.position quote)
    else .error (.valueUnquoted c.position)

theorem key_length {first : UInt8} {c d : Cursor} {k : Bytes} (h : key first c = .ok (k, d)) :
    d.rest.length ≤ c.rest.length := by
  unfold key at h
  have h1 := Cursor.length_rest_span_le (fun b => b != equals && !isSpace b) c
  have h2 := Cursor.length_rest_span_le isSpace (c.span fun b => b != equals && !isSpace b).2
  dsimp only [Cursor.skipSpace] at h
  split at h
  · next b rest hr =>
    split at h
    · cases h
      rw [hr] at h2
      simp only [List.length_cons] at h2
      dsimp only
      omega
    · cases h
  · cases h

theorem value_length {c d : Cursor} {v : Bytes} (h : value c = .ok (v, d)) :
    d.rest.length ≤ c.rest.length := by
  unfold value at h
  have h1 := Cursor.length_rest_span_le isSpace c
  dsimp only [Cursor.skipSpace] at h
  split at h
  · cases h
  · next quote rest hr =>
    rw [hr] at h1
    split at h
    · have h2 := Cursor.length_rest_span_le (· != quote)
        ⟨(Cursor.span isSpace c).2.position + 1, rest⟩
      split at h
      · next b rest' hr' =>
        cases h
        rw [hr'] at h2
        simp only [List.length_cons] at h1 h2
        dsimp only at h2 ⊢
        omega
      · cases h
    · cases h

/-- Reads attributes up to the end of the tag. `keys` are those read so far, with their offsets. -/
def collect (start : Cursor) (keys : List (Nat × Bytes)) (done : Attributes) :
    Except Fault Attributes :=
  let c := start.skipSpace
  match _hr : c.rest with
  | [] => .ok done
  | first :: rest =>
    match _hk : key first ⟨c.position + 1, rest⟩ with
    | .error fault => .error fault
    | .ok (k, d) =>
      match keys.find? (·.2 == k) with
      | some (previous, _) => .error (.duplicateAttribute c.position previous)
      | none =>
        match _hv : value d with
        | .error fault => .error fault
        | .ok (v, e) =>
          match Reference.read v with
          | .error fault => .error fault
          | .ok text =>
            collect e (keys ++ [(c.position, k)]) (done.insert (Utf8.decodeLossy k) text)
termination_by start.rest.length
decreasing_by
  have h1 : c.rest.length ≤ start.rest.length := Cursor.length_rest_span_le isSpace start
  have h2 := key_length _hk
  have h3 := value_length _hv
  rw [_hr] at h1
  simp only [List.length_cons] at h1
  dsimp only at h2
  omega

/-- The attributes of a tag of the given bytes, whose name takes up the first of them. -/
def ofTag (content : Bytes) (nameLength : Nat) : Except Fault Attributes :=
  collect ⟨nameLength, content.drop nameLength⟩ [] []

end Attribute

end Marc21.Xml
