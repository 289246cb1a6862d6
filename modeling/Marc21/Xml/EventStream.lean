import Marc21.Xml.Token
import Marc21.Error

/-!
The events of a document. Character data that only skipped markup separates is one event, so the stream
reads on to the next tag or to the end, and keeps that event for the next call.
-/

namespace Marc21.Xml

namespace Token

/-- The event that a token stands for by itself, if it stands for one. -/
def event? : Token → Except Fault (Option Event)
  | .start content nameLength => do
    let name := Utf8.decodeLossy (Scanner.localName (content.take nameLength))
    return some (.opening name (← Attribute.ofTag content nameLength))
  | .stop name => return some (.closing (Utf8.decodeLossy (Scanner.localName name)))
  | .text content => return some (.text (← Reference.read content))
  | .verbatim content => return some (.text (Utf8.decodeLossy content))
  | .passedOver => return none
  | .endOfInput => return some .endOfDocument

end Token

structure EventStream where
  scanner : Scanner
  ahead : Option Event
  deriving DecidableEq, Repr

namespace EventStream

def ofBytes (bs : Bytes) (supply : Supply) (broken : Option String) : EventStream :=
  ⟨Scanner.ofBytes bs supply broken, none⟩

def line (s : EventStream) : Nat := s.scanner.line

def fault (s : Scanner) (f : Fault) : MarcError := .malformedXml s.line (.markup f)

/-- Reads on to a tag or the end. `text` is the character data on the way, in reverse, if any. -/
def gather (s : Scanner) (text : Option (List String)) : Except MarcError Event × EventStream :=
  match _h : s.next with
  | (.error f, t) => (.error (fault t f), ⟨t, none⟩)
  | (.ok token, t) =>
    match _he : token.event? with
    | .error f => (.error (fault t f), ⟨t, none⟩)
    | .ok none => gather t text
    | .ok (some (.text s)) => gather t (some (s :: text.getD []))
    | .ok (some event) =>
      match text with
      | none => (.ok event, ⟨t, none⟩)
      | some parts => (.ok (.text (String.join parts.reverse)), ⟨t, some event⟩)
termination_by s.weight
decreasing_by
  · exact Scanner.next_weight _h (by rintro rfl; cases _he)
  · exact Scanner.next_weight _h (by rintro rfl; cases _he)

def next (s : EventStream) : Except MarcError Event × EventStream :=
  match s.ahead with
  | some event => (.ok event, { s with ahead := none })
  | none => gather s.scanner none

/-- A bound on the events that are left. -/
def weight (s : EventStream) : Nat := 2 * s.scanner.weight + if s.ahead.isSome then 1 else 0

theorem gather_weight {s : Scanner} {text : Option (List String)} {event : Event}
    {t : EventStream} (h : gather s text = (.ok event, t)) (hne : event ≠ .endOfDocument) :
    t.weight + (if text.isSome then 0 else 1) ≤ 2 * s.weight + (if text.isSome then 1 else 0) := by
  fun_induction gather s text with
  | case1 => cases h
  | case2 => cases h
  | case3 s text token u hn he ih =>
    have hw := Scanner.next_weight hn (by rintro rfl; cases he)
    have := ih h
    split at this <;> simp_all <;> omega
  | case4 s text token u hn content he ih =>
    have hw := Scanner.next_weight hn (by rintro rfl; cases he)
    have := ih h
    simp only [Option.isSome_some, if_true] at this
    split <;> omega
  | case5 s token u hn event' hnt he =>
    cases h
    have hw := Scanner.next_weight hn (by rintro rfl; cases he; exact hne rfl)
    simp only [weight, Option.isSome_none]
    simp only [Bool.false_eq_true, if_false]
    omega
  | case6 s token u hn event' hnt he parts =>
    cases h
    have hw := Scanner.next_weight_le hn
    simp only [weight, Option.isSome_some, if_true]
    omega

/-- Each event uses something up. -/
theorem next_weight {s t : EventStream} {event : Event} (h : s.next = (.ok event, t))
    (hne : event ≠ .endOfDocument) : t.weight < s.weight := by
  unfold next at h
  split at h
  · next event' ha =>
    cases h
    simp [weight, ha]
  · next ha =>
    have := gather_weight h hne
    simp only [Option.isSome_none] at this
    simp only [Bool.false_eq_true, if_false] at this
    simp only [weight, ha, Option.isSome_none]
    simp only [Bool.false_eq_true, if_false]
    simp only [weight] at this
    omega

end EventStream

end Marc21.Xml
