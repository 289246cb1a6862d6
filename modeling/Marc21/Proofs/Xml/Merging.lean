import Marc21.Proofs.Xml.Events
import Marc21.Proofs.Xml.Markup

/-!
The events of a stream, by what the scanner below gives. Each token stands for an event or for nothing
(`Scanner.events`), and the stream puts pieces of character data together (`map_events`). So the tags of a stream
are those of its scanner.
-/

namespace Marc21.Xml

namespace Scanner

/-- What the tokens of a scanner stand for, up to the end of the document or the first fault. -/
def events (s : Scanner) : List Event :=
  match _h : s.next with
  | (.error _, _) => []
  | (.ok token, t) =>
    match _he : token.event? with
    | .error _ => []
    | .ok none => events t
    | .ok (some event) => if _hend : event = .endOfDocument then [event] else event :: events t
termination_by s.weight
decreasing_by
  · exact next_weight _h (by rintro rfl; cases _he)
  · exact next_weight _h (by rintro rfl; cases _he; exact _hend rfl)

/-- What a token stands for, and all behind it. -/
def eventsFrom : Except Fault Token × Scanner → List Event
  | (.error _, _) => []
  | (.ok token, t) =>
    match token.event? with
    | .error _ => []
    | .ok none => t.events
    | .ok (some event) => event :: if event = .endOfDocument then [] else t.events

variable {s t : Scanner} {token : Token} {event : Event}

theorem events_eq (s : Scanner) : s.events = eventsFrom s.next := by
  rw [events, eventsFrom.eq_def]
  split
  · next hnext => rw [hnext]
  · next hnext =>
    rw [hnext]
    dsimp only
    split
    · next htoken => rw [htoken]
    · next htoken => rw [htoken]
    · next htoken =>
      rw [htoken]
      dsimp only
      split <;> rfl

/-- At the end and after a fault it makes no difference what the scanner is left with. -/
theorem events_eq_readAny (s : Scanner) : s.events = eventsFrom s.readAny := by
  rw [events_eq, next]
  split
  · next hread =>
    rw [hread]
    rfl
  · next hread => rw [hread]
  · next hread =>
    rw [hread]
    rfl

theorem eventsFrom_tag (htoken : token.event? = .ok (some event)) (hevent : event.IsTag) :
    eventsFrom (.ok token, t) = event :: t.events := by
  have hend : event ≠ .endOfDocument := by
    rintro rfl
    exact hevent
  rw [eventsFrom, htoken]
  exact congrArg (event :: ·) (if_neg hend)

end Scanner

/-! ## Character data -/

/-- Puts pieces of character data that follow each other together. What comes before is given in reverse, and
what no other event follows is left out. -/
def merge : Option (List String) → List Event → List Event
  | _, [] => []
  | text, .text content :: rest => merge (some (content :: text.getD [])) rest
  | none, event :: rest => event :: merge none rest
  | some parts, event :: rest => .text (String.join parts.reverse) :: event :: merge none rest

section

variable {event : Event}

theorem merge_none_cons (h : ∀ content, event ≠ .text content) (rest : List Event) :
    merge none (event :: rest) = event :: merge none rest := by
  cases event with
  | text content => exact absurd rfl (h content)
  | opening name as => rfl
  | closing name => rfl
  | endOfDocument => rfl

theorem merge_some_cons (h : ∀ content, event ≠ .text content) (parts : List String) (rest : List Event) :
    merge (some parts) (event :: rest) =
      .text (String.join parts.reverse) :: event :: merge none rest := by
  cases event with
  | text content => exact absurd rfl (h content)
  | opening name as => rfl
  | closing name => rfl
  | endOfDocument => rfl

end

namespace EventStream

/-- What is kept for the next call, and what the scanner gives behind it. -/
def merged (s : EventStream) : List Event :=
  match s.ahead with
  | none => merge none s.scanner.events
  | some event => event :: if event = .endOfDocument then [] else merge none s.scanner.events

private theorem merge_gather (s : Scanner) (text : Option (List String)) :
    merge text s.events = match gather s text with
      | (.error _, _) => []
      | (.ok event, t) => event :: if event = .endOfDocument then [] else t.merged := by
  fun_induction gather s text with
  | case1 s text fault t hnext =>
    rw [Scanner.events_eq, hnext]
    exact merge.eq_1 _
  | case2 s text token t hnext fault htoken =>
    rw [Scanner.events_eq, hnext, Scanner.eventsFrom, htoken]
    exact merge.eq_1 _
  | case3 s text token t hnext htoken ih =>
    rw [Scanner.events_eq, hnext, Scanner.eventsFrom, htoken]
    exact ih
  | case4 s text token t hnext content htoken ih =>
    rw [Scanner.events_eq, hnext, Scanner.eventsFrom, htoken]
    exact ih
  | case5 s token t hnext event hnt htoken =>
    rw [Scanner.events_eq, hnext, Scanner.eventsFrom, htoken]
    dsimp only
    rw [merge_none_cons fun content heq => hnt content heq]
    split <;> rfl
  | case6 s token t hnext event hnt htoken parts =>
    rw [Scanner.events_eq, hnext, Scanner.eventsFrom, htoken]
    dsimp only
    rw [merge_some_cons fun content heq => hnt content heq]
    by_cases hend : event = .endOfDocument
    · simp [merged, hend, merge]
    · simp [merged, hend]

/-- **A stream gives the events of its scanner**, with character data in one piece. -/
theorem map_events (s : EventStream) : s.events.map Prod.snd = s.merged := by
  generalize hn : s.weight = n
  induction n using Nat.strongRecOn generalizing s with
  | ind n ih =>
    have hmerged : s.merged = match s.next with
        | (.error _, _) => []
        | (.ok event, t) => event :: if event = .endOfDocument then [] else t.merged := by
      obtain ⟨scanner, ahead⟩ := s
      cases ahead with
      | none => exact merge_gather scanner none
      | some event => rfl
    rw [hmerged]
    cases hnext : s.next with
    | mk found t =>
      cases found with
      | error e =>
        rw [events_of_error hnext]
        rfl
      | ok event =>
        rw [events_of_event hnext, List.map_cons]
        dsimp only
        split
        · rfl
        · next hend => rw [ih _ (hn ▸ next_weight hnext hend) t rfl]

end EventStream

/-! ## Tags -/

instance : DecidablePred Event.IsTag
  | .opening _ _ | .closing _ => .isTrue trivial
  | .text _ | .endOfDocument => .isFalse id

/-- The tags among events. -/
def tags (es : List Event) : List Event := es.filter (·.IsTag)

theorem closing_mem_tags {name : String} {es : List Event} :
    .closing name ∈ tags es ↔ .closing name ∈ es := by
  have htag : (Event.closing name).IsTag := trivial
  simp [tags, List.mem_filter, htag]

theorem closing_not_mem_of_tags {name : String} {es : List Event} (h : tags es = []) : .closing name ∉ es := by
  rw [← closing_mem_tags, h]
  exact List.not_mem_nil

theorem tags_append (es fs : List Event) : tags (es ++ fs) = tags es ++ tags fs :=
  List.filter_append es fs

theorem tags_text (content : String) (es : List Event) : tags (.text content :: es) = tags es := rfl

theorem tags_cons (event : Event) (es : List Event) :
    tags (event :: es) = if event.IsTag then event :: tags es else tags es := by
  rw [tags, List.filter_cons, ← tags]
  simp only [decide_eq_true_eq]

theorem tags_merge (text : Option (List String)) (es : List Event) : tags (merge text es) = tags es := by
  fun_induction merge text es with
  | case1 => rfl
  | case2 text content rest ih => exact ih
  | case3 event rest hnt ih => rw [tags_cons, tags_cons, ih]
  | case4 parts event rest hnt ih => rw [tags_text, tags_cons, tags_cons, ih]

theorem tags_events_ofBytes (bs : Bytes) (supply : Supply) (broken : Option String) :
    tags ((EventStream.ofBytes bs supply broken).events.map Prod.snd) =
      tags (Scanner.ofBytes bs supply broken).events := by
  rw [EventStream.map_events]
  exact tags_merge none _

end Marc21.Xml
