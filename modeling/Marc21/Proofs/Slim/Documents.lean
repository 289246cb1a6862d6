import Marc21.Proofs.Format.Reader
import Marc21.Proofs.Xml.Events
import Marc21.Proofs.Slim.Reading
import Marc21.Proofs.Slim.Acceptance
import Marc21.Proofs.Slim.Steps

/-!
What a reader makes of a document. The events of the stream go through the grammar one by one
(`left?_readFrom`), and those that it passes over are the white space outside of elements of text
(`readRaw?_eq`). So the reader accepts the documents of the grammar and gives their records
(`readAll_eq_ok_iff`).
-/

namespace Marc21.Slim

open Xml (Apart Attributes Event EventStream)

/-! ## White space -/

/-- The records that the grammar takes from events, some of which it passes over. -/
def Stage.readRaw? : List (Nat × Event) → Stage → Option (List Record)
  | [], _ => none
  | (line, event) :: rest, stage => (stage.step line event).resume (readRaw? rest)

namespace Stage

/-- Inside of an element of text. -/
def inside : Stage → Bool
  | .leaderText .. | .controlText .. | .subfieldText .. => true
  | .leaderEnd .. | .controlEnd .. | .subfieldEnd .. => true
  | _ => false

/-- Behind the content of an element of text. -/
def hasText : Stage → Bool
  | .leaderEnd .. | .controlEnd .. | .subfieldEnd .. => true
  | _ => false

end Stage

/-- What comes next is inside of an element of text as given, and behind its content only if there was text. -/
def Verdict.Enters (inside : Bool) (event : Event) : Verdict → Prop
  | .goOn next _ => next.inside = inside ∧ (next.hasText = true → event.IsText)
  | .record _ lone => lone = false → inside = false
  | _ => True

namespace Stage

theorem react_enters (stage : Stage) (line : Nat) (event : Event) :
    (stage.react line event).Enters (insideAfter stage.inside event) event := by
  have hmakes := react_makes stage line event
  generalize stage.react line event = verdict at hmakes ⊢
  cases hmakes with
  | failed | closed => trivial
  | leaderText | controlText | subfieldText => exact ⟨rfl, fun _ => trivial⟩
  | closeLeader hstage => rcases hstage with rfl | rfl <;> exact ⟨rfl, fun h => Bool.noConfusion h⟩
  | closeControl _ _ hstage => rcases hstage with rfl | rfl <;> exact ⟨rfl, fun h => Bool.noConfusion h⟩
  | closeSubfield _ _ hstage => rcases hstage with rfl | rfl <;> exact ⟨rfl, fun h => Bool.noConfusion h⟩
  | closeRecord => exact fun _ => rfl
  | endOfDocument => exact fun h => Bool.noConfusion h
  | _ => exact ⟨rfl, fun h => Bool.noConfusion h⟩

theorem inside_eq (stage : Stage) : stage.inside = (stage.keepsText || stage.hasText) := by
  cases stage <;> rfl

end Stage

theorem isText_of_isSeparator {event : Event} (h : event.isSeparator = true) : event.IsText := by
  cases event with
  | text content => trivial
  | opening name as => cases h
  | closing name => cases h
  | endOfDocument => cases h

namespace Stage

variable {stage : Stage} {event : Event}

/-- White space outside of elements of text is passed over. -/
theorem step_of_skipped (hskip : (event.isSeparator && !stage.inside) = true) (line : Nat) :
    stage.step line event = .goOn stage [] := by
  rw [inside_eq, Bool.not_or, Bool.and_eq_true, Bool.and_eq_true] at hskip
  exact if_pos ⟨hskip.1, hskip.2.1⟩

/-- All other events count, if there is no second piece of character data in an element of text. -/
theorem step_of_kept (hkept : ¬(event.isSeparator && !stage.inside) = true)
    (hnext : stage.hasText = true → ¬event.IsText) (line : Nat) :
    stage.step line event = stage.react line event := by
  rw [step, if_neg]
  rintro ⟨hseparator, hkeeps⟩
  have htext : stage.hasText = true := by
    by_contra hno
    apply hkept
    rw [inside_eq, Bool.not_or, hseparator, hkeeps, Bool.eq_false_iff.2 hno]
    rfl
  exact hnext htext (isText_of_isSeparator hseparator)

end Stage

/-- In events of which no two neighbours are character data, the grammar passes over the white space that is
not significant. -/
theorem readRaw?_eq {es : List (Nat × Event)} (hapart : Apart es) (stage : Stage)
    (hhead : stage.hasText = true → ∀ found ∈ es.head?, ¬found.2.IsText) :
    Stage.readRaw? es stage = Stage.read? (significant stage.inside es) stage := by
  induction es generalizing stage with
  | nil => rfl
  | cons found es ih =>
    obtain ⟨line, event⟩ := found
    rw [Apart, List.isChain_cons] at hapart
    obtain ⟨hbehind, hapart⟩ := hapart
    rw [Stage.readRaw?, significant]
    by_cases hskip : (event.isSeparator && !stage.inside) = true
    · have houtside : stage.hasText = false := by
        rw [stage.inside_eq, Bool.not_or, Bool.and_eq_true, Bool.and_eq_true, Bool.not_eq_true',
          Bool.not_eq_true'] at hskip
        exact hskip.2.2
      rw [if_pos hskip, Stage.step_of_skipped hskip, Verdict.resume]
      exact ih hapart stage fun htext => absurd htext (by simp [houtside])
    · have hstep := Stage.step_of_kept hskip (fun htext => hhead htext (line, event) rfl) line
      have henters := Stage.react_enters stage line event
      rw [if_neg hskip, hstep, Stage.read?]
      cases hreact : stage.react line event with
      | goOn next notices =>
        rw [hreact] at henters
        obtain ⟨hnext, htext⟩ := henters
        rw [Verdict.resume, Verdict.resume, ← hnext]
        exact ih hapart next fun h found hfound hfoundtext => hbehind found hfound ⟨htext h, hfoundtext⟩
      | record r lone =>
        cases lone with
        | true => rfl
        | false =>
          rw [hreact] at henters
          have hmember := ih hapart .member fun h => Bool.noConfusion h
          rw [Verdict.resume, Verdict.resume, hmember, henters rfl]
          rfl
      | closed => rfl
      | failed error => rfl

/-! ## The reader -/

/-- All records that are left, unless there is an error. -/
def left? (r : RecordReader) : Option (List Record) := r.readAll.result.toOption

/-- The record that a call gave, if it gave one, and all that are left. -/
def leftAfter (o : Outcome Reader (Option Record)) : Option (List Record) :=
  match o.result with
  | .error _ => none
  | .ok none => some []
  | .ok (some record) => (left? (.xml o.state)).map (record :: ·)

theorem left?_eq (r : Reader) : left? (.xml r) = leftAfter r.read := by
  have hread : (RecordReader.xml r).read = r.read.mapState .xml := rfl
  rw [left?, leftAfter]
  split
  · next e h =>
    rw [RecordReader.readAll_of_error (by rw [hread]; exact h)]
    rfl
  · next h =>
    rw [RecordReader.readAll_of_none (by rw [hread]; exact h)]
    rfl
  · next record h =>
    rw [RecordReader.readAll_of_record (by rw [hread]; exact h), hread, left?]
    change (Except.map _ (RecordReader.xml r.read.state).readAll.result).toOption = _
    cases (RecordReader.xml r.read.state).readAll.result <;> rfl

/-- After the only record of a document there is nothing. -/
theorem left?_finished {r : Reader} {s : EventStream} (hs : r.stream = some s) (hplace : r.place = .finished) :
    left? (.xml r) = some [] := by
  rw [left?_eq, leftAfter, Reader.read, hs, hplace]

theorem left?_inCollection {r : Reader} {s : EventStream} (hs : r.stream = some s)
    (hplace : r.place = .inCollection) : left? (.xml r) = leftAfter (r.readFrom s .member) := by
  rw [left?_eq, Reader.read, hs, hplace]

theorem leftAfter_congr (r : Reader) {s t : EventStream} {a b : Stage} (h : Leads s a t b) :
    leftAfter (r.readFrom s a) = leftAfter (r.readFrom t b) := by
  obtain ⟨hresult, hstate⟩ := h
  unfold Reader.readFrom
  generalize readEvents s a = first at hresult hstate
  generalize readEvents t b = second at hresult hstate
  obtain ⟨result, state, notices⟩ := first
  obtain ⟨result', state', notices'⟩ := second
  dsimp only at hresult hstate
  subst hresult hstate
  cases result with
  | error e => rfl
  | ok found => cases found <;> rfl

/-- The events of a stream go through the grammar. -/
theorem leftAfter_readFrom (r : Reader) (s : EventStream) (stage : Stage) :
    leftAfter (r.readFrom s stage) = stage.readRaw? s.events := by
  generalize hn : s.weight = n
  induction n using Nat.strongRecOn generalizing r s stage with
  | ind n ih =>
    cases hnext : s.next with
    | mk found t =>
      cases found with
      | error e =>
        rw [EventStream.events_of_error hnext, Reader.readFrom, readEvents, hnext]
        rfl
      | ok event =>
        rw [EventStream.events_of_event hnext, Stage.readRaw?]
        cases hstep : stage.step t.line event with
        | goOn next notices =>
          have hend : event ≠ .endOfDocument := by
            rintro rfl
            exact Stage.step_endOfDocument stage t.line next notices hstep
          rw [if_neg hend, leftAfter_congr r (Leads.of_step hnext hstep)]
          exact ih _ (hn ▸ EventStream.next_weight hnext hend) r t next rfl
        | record record lone =>
          rw [Reader.readFrom, readEvents_of_next hnext, hstep, Verdict.resume]
          cases lone with
          | true => rw [leftAfter, left?_finished rfl rfl]; rfl
          | false =>
            have hend : event ≠ .endOfDocument := by
              rintro rfl
              cases Stage.step_endOfDocument_record hstep
            rw [leftAfter, if_neg hend, left?_inCollection rfl rfl,
              ih _ (hn ▸ EventStream.next_weight hnext hend) _ t .member rfl]
            rfl
        | closed =>
          rw [Reader.readFrom, readEvents_of_next hnext, hstep]
          rfl
        | failed e =>
          rw [Reader.readFrom, readEvents_of_next hnext, hstep]
          rfl

/-! ## Main result -/

/-- **The reader accepts its grammar and nothing else.** Reading a document to its end succeeds if, and only if,
its events without the white space between elements are those of a tree of elements, or go on behind the end of
its collection, and then it gives the records that the tree stands for. -/
theorem readAll_eq_ok_iff (input : Input) (rs : List Record) :
    (RecordReader.xml (.ofInput input)).readAll.result = .ok rs ↔
      ∃ document : Document, document.records = rs ∧ document.events <+:
        (significant false
          (EventStream.ofBytes input.bytes input.supply input.broken).events).map Prod.snd := by
  have hleft : left? (.xml (.ofInput input)) = some rs ↔
      (RecordReader.xml (.ofInput input)).readAll.result = .ok rs := by
    rw [left?]
    cases (RecordReader.xml (.ofInput input)).readAll.result <;> simp [Except.toOption]
  have hapart := EventStream.apart_events
    (EventStream.kept_ofBytes input.bytes input.supply input.broken)
  rw [← hleft, left?_eq]
  change leftAfter ((Reader.ofInput input).readFrom _ .root) = some rs ↔ _
  rw [leftAfter_readFrom, readRaw?_eq hapart .root fun h => Bool.noConfusion h]
  exact read?_root

end Marc21.Slim
