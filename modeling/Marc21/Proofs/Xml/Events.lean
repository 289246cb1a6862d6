import Mathlib.Data.List.Chain
import Marc21.Xml.EventStream

/-!
All events of a stream, as far as it can be read. No two of them that follow each other are character data
(`apart_events`), because the stream goes on until it meets something else, which it keeps for the next call.
-/

namespace Marc21.Xml

def Event.IsText : Event → Prop
  | .text _ => True
  | _ => False

/-- Events, each with the line it ends on, of which no two neighbours are character data. -/
def Apart (events : List (Nat × Event)) : Prop :=
  events.IsChain fun a b => ¬(a.2.IsText ∧ b.2.IsText)

namespace EventStream

/-- The events of a stream with the lines they end on, up to the end of the document or the first error. -/
def events (s : EventStream) : List (Nat × Event) :=
  match _h : s.next with
  | (.error _, _) => []
  | (.ok event, t) =>
    if _hend : event = .endOfDocument then [(t.line, event)] else (t.line, event) :: events t
termination_by s.weight
decreasing_by exact next_weight _h _hend

/-- What a stream keeps for the next call is not character data. -/
def Kept (s : EventStream) : Prop := ∀ event ∈ s.ahead, ¬event.IsText

variable {s t : EventStream} {event : Event}

theorem events_of_error {e : MarcError} (h : s.next = (.error e, t)) : s.events = [] := by
  rw [events]
  split
  · rfl
  · next hnext => cases h.symm.trans hnext

theorem events_of_event (h : s.next = (.ok event, t)) :
    s.events = (t.line, event) :: if event = .endOfDocument then [] else t.events := by
  rw [events]
  split
  · next hnext => cases h.symm.trans hnext
  · next hnext =>
    cases h.symm.trans hnext
    split <;> rfl

/-- Two streams with the same events give the same in the next call, up to the end of the document. -/
theorem next_of_map_events (h : s.events.map Prod.snd = t.events.map Prod.snd) :
    (∃ e e' u v, s.next = (.error e, u) ∧ t.next = (.error e', v)) ∨
      ∃ event u v, s.next = (.ok event, u) ∧ t.next = (.ok event, v) ∧
        (event ≠ .endOfDocument → u.events.map Prod.snd = v.events.map Prod.snd) := by
  cases hs : s.next with
  | mk found u =>
    cases ht : t.next with
    | mk found' v =>
      cases found with
      | error e =>
        cases found' with
        | error e' => exact .inl ⟨e, e', u, v, rfl, rfl⟩
        | ok event =>
          rw [events_of_error hs, events_of_event ht] at h
          cases h
      | ok event =>
        cases found' with
        | error e' =>
          rw [events_of_event hs, events_of_error ht] at h
          cases h
        | ok event' =>
          rw [events_of_event hs, events_of_event ht, List.map_cons, List.map_cons] at h
          obtain ⟨rfl, hrest⟩ := List.cons.inj h
          refine .inr ⟨event, u, v, rfl, rfl, fun hend => ?_⟩
          rwa [if_neg hend, if_neg hend] at hrest

/-! ## Character data -/

theorem not_isText (h : ∀ content, event ≠ .text content) : ¬event.IsText := by
  cases event with
  | text content => exact absurd rfl (h content)
  | opening name as => exact id
  | closing name => exact id
  | endOfDocument => exact id

private theorem gather_kept {s : Scanner} {text : Option (List String)}
    (h : gather s text = (.ok event, t)) : t.Kept ∧ (event.IsText → t.ahead.isSome = true) := by
  fun_induction gather s text with
  | case1 => cases h
  | case2 => cases h
  | case3 s text token u hn he ih => exact ih h
  | case4 s text token u hn content he ih => exact ih h
  | case5 s token u hn event' hnt he =>
    cases h
    exact ⟨by simp [Kept], fun htext => absurd htext (not_isText fun content heq => hnt content heq)⟩
  | case6 s token u hn event' hnt he parts =>
    cases h
    refine ⟨?_, fun _ => rfl⟩
    rintro kept ⟨⟩
    exact not_isText fun content heq => hnt content heq

/-- Behind character data something else is kept. -/
theorem next_kept (hs : s.Kept) (h : s.next = (.ok event, t)) :
    t.Kept ∧ (event.IsText → t.ahead.isSome = true) := by
  unfold next at h
  split at h
  · next found hahead =>
    cases h
    exact ⟨by simp [Kept], fun htext => absurd htext (hs event hahead)⟩
  · exact gather_kept h

/-- What is kept comes next. -/
theorem head?_events (h : s.ahead = some event) : ∀ found ∈ s.events.head?, found.2 = event := by
  have hnext : s.next = (.ok event, { s with ahead := none }) := by rw [next, h]
  rw [events_of_event hnext]
  rintro found ⟨⟩
  rfl

/-- No character data follows character data. -/
theorem apart_events (hs : s.Kept) : Apart s.events := by
  generalize hn : s.weight = n
  induction n using Nat.strongRecOn generalizing s with
  | ind n ih =>
    cases hnext : s.next with
    | mk found t =>
      cases found with
      | error e =>
        rw [events_of_error hnext]
        exact .nil
      | ok event =>
        rw [events_of_event hnext]
        by_cases hend : event = .endOfDocument
        · rw [if_pos hend]
          exact .singleton _
        · obtain ⟨ht, hbehind⟩ := next_kept hs hnext
          rw [if_neg hend, Apart, List.isChain_cons]
          refine ⟨?_, ih _ (hn ▸ next_weight hnext hend) ht rfl⟩
          rintro other hother ⟨htext, hothertext⟩
          obtain ⟨kept, hkept⟩ := Option.isSome_iff_exists.1 (hbehind htext)
          rw [head?_events hkept other hother] at hothertext
          exact ht kept hkept hothertext

theorem kept_ofBytes (bs : Bytes) (supply : Supply) (broken : Option String) :
    (ofBytes bs supply broken).Kept := by
  simp [Kept, ofBytes]

end EventStream

end Marc21.Xml
