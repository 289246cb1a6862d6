import Marc21.Proofs.Slim.Iteration
import Marc21.Proofs.Slim.Documents
import Marc21.Proofs.Xml.Joining

/-!
Character data in other pieces. Lines are for messages alone, so a reader makes the same of two documents with the
same events, call by call, whatever lines the events end on (`Reader.Alike.after`). The pieces in which character data
comes are joined on the way to the events, so they make no difference either (`read_of_recut`).
-/

namespace Marc21.Slim

open Xml (Attributes Event EventStream Recut Scanner joinText)

/-! ## Without lines -/

/-- A stage without its lines. -/
def Stage.unlined : Stage → Stage
  | .leaderText lone _ => .leaderText lone 0
  | .leaderEnd lone _ text => .leaderEnd lone 0 text
  | .controlText d tag _ => .controlText d tag 0
  | .controlEnd d tag _ text => .controlEnd d tag 0 text
  | .subfields d f => .subfields d { f with line := 0 }
  | .subfieldText d f code _ => .subfieldText d { f with line := 0 } code 0
  | .subfieldEnd d f code _ text => .subfieldEnd d { f with line := 0 } code 0 text
  | stage => stage

/-- A verdict without what names lines: the notices, and what is wrong if it fails. -/
def Verdict.unlined : Verdict → Option Verdict
  | .goOn next _ => some (.goOn next.unlined [])
  | .failed _ => none
  | verdict => some verdict

/-- Verdicts that differ in what names lines alone. -/
inductive Verdict.Alike : Verdict → Verdict → Prop
  | goOn {a b : Stage} (hstages : a.unlined = b.unlined) (notices notices' : List Notice) :
      Alike (.goOn a notices) (.goOn b notices')
  | record (r : Record) (lone : Bool) : Alike (.record r lone) (.record r lone)
  | closed : Alike .closed .closed
  | failed (e e' : MarcError) : Alike (.failed e) (.failed e')

theorem Verdict.alike_of_unlined {v w : Verdict} (h : v.unlined = w.unlined) : v.Alike w := by
  cases v with
  | goOn a notices =>
    cases w with
    | goOn b notices' => exact .goOn (Verdict.goOn.inj (Option.some.inj h)).1 notices notices'
    | _ => cases h
  | record r lone =>
    cases w with
    | record r' lone' =>
      cases h
      exact .record r lone
    | _ => cases h
  | closed =>
    cases w with
    | closed => exact .closed
    | _ => cases h
  | failed e =>
    cases w with
    | failed e' => exact .failed e e'
    | _ => cases h

namespace Stage

section

variable {line other : Nat}

theorem unlined_ite {c : Prop} [Decidable c] {v w v' w' : Verdict} (h : v.unlined = v'.unlined)
    (h' : w.unlined = w'.unlined) : (if c then v else w).unlined = (if c then v' else w').unlined := by
  split
  · exact h
  · exact h'

theorem unlined_answer_bind {α : Type} {x : Except DocumentFault α} {f g : α → Except DocumentFault Verdict}
    (h : ∀ a, (answer line (f a)).unlined = (answer other (g a)).unlined) :
    (answer line (x >>= f)).unlined = (answer other (x >>= g)).unlined := by
  cases x with
  | error fault => rfl
  | ok a => exact h a

theorem unlined_openField (d : Draft) (event : Event) (name : String) (as : Attributes) :
    (openField d line event name as).unlined = (openField d other event name as).unlined := by
  refine unlined_ite ?_ (unlined_ite ?_ rfl)
  · split
    · rfl
    · exact unlined_answer_bind fun tag => rfl
  · exact unlined_answer_bind fun tag => unlined_answer_bind fun indicator1 =>
      unlined_answer_bind fun indicator2 => rfl

end

/-- Stages that differ in lines alone make the same of an event, on whatever lines it ends. -/
theorem react_unlined (stage : Stage) (line : Nat) (event : Event) :
    (stage.react line event).unlined = (stage.unlined.react 0 event).unlined := by
  cases event with
  | opening name as =>
    cases stage with
    | root =>
      exact unlined_ite (unlined_answer_bind fun _ => rfl) (unlined_ite (unlined_answer_bind fun _ => rfl) rfl)
    | member => exact unlined_ite (unlined_answer_bind fun _ => rfl) rfl
    | leaderStart => exact unlined_ite rfl rfl
    | fields d => exact unlined_openField d _ name as
    | subfields => exact unlined_ite (unlined_answer_bind fun _ => rfl) rfl
    | _ => rfl
  | closing name =>
    cases stage with
    | member => exact unlined_ite rfl rfl
    | leaderText | leaderEnd => exact unlined_ite (unlined_answer_bind fun _ => rfl) rfl
    | fields | controlText | controlEnd | subfields | subfieldText | subfieldEnd =>
      exact unlined_ite (unlined_ite rfl rfl) rfl
    | _ => rfl
  | text content => cases stage <;> rfl
  | endOfDocument => cases stage <;> rfl

theorem step_unlined (stage : Stage) (line : Nat) (event : Event) :
    (stage.step line event).unlined = (stage.unlined.step 0 event).unlined := by
  have hkeeps : stage.unlined.keepsText = stage.keepsText := by cases stage <;> rfl
  have hunlined : stage.unlined.unlined = stage.unlined := by cases stage <;> rfl
  rw [step, step, hkeeps]
  exact unlined_ite (congrArg (fun next => some (Verdict.goOn next [])) hunlined.symm)
    (react_unlined stage line event)

end Stage

/-! ## Reading -/

/-- What is read of streams with the same events differs in lines alone, and so does what comes behind a record. -/
theorem readEvents_alike {s t : EventStream} (hevents : s.events.map Prod.snd = t.events.map Prod.snd)
    {a b : Stage} (hstages : a.unlined = b.unlined) :
    (readEvents s a).result.toOption = (readEvents t b).result.toOption ∧
      ∀ r, (readEvents s a).result = .ok (some (r, false)) →
        (readEvents s a).state.events.map Prod.snd = (readEvents t b).state.events.map Prod.snd := by
  generalize hn : s.weight = n
  induction n using Nat.strongRecOn generalizing s t a b with
  | ind n ih =>
    rcases EventStream.next_of_map_events hevents with ⟨e, e', u, v, hs, ht⟩ | ⟨event, u, v, hs, ht, hbehind⟩
    · have hs : readEvents s a = ⟨.error e, u, []⟩ := by rw [readEvents, hs]
      have ht : readEvents t b = ⟨.error e', v, []⟩ := by rw [readEvents, ht]
      rw [hs, ht]
      exact ⟨rfl, fun r h => by cases h⟩
    · have hverdict : (a.step u.line event).Alike (b.step v.line event) := by
        apply Verdict.alike_of_unlined
        rw [Stage.step_unlined, Stage.step_unlined b, hstages]
      rw [readEvents_of_next hs, readEvents_of_next ht]
      generalize ha : a.step u.line event = verdict at hverdict
      generalize b.step v.line event = verdict' at hverdict
      cases hverdict with
      | goOn hnext =>
        have hend : event ≠ .endOfDocument := by
          rintro rfl
          exact Stage.step_endOfDocument a u.line _ _ ha
        exact ih _ (hn ▸ EventStream.next_weight hs hend) (hbehind hend) hnext rfl
      | record record lone =>
        refine ⟨rfl, fun r h => ?_⟩
        cases h
        refine hbehind ?_
        rintro rfl
        cases Stage.step_endOfDocument_record ha
      | closed => exact ⟨rfl, fun r h => by cases h⟩
      | failed e e' => exact ⟨rfl, fun r h => by cases h⟩

namespace Reader

/-- Two readers with the same events ahead, at the same place, or both at the end. -/
inductive Alike : Reader → Reader → Prop
  | underway {r q : Reader} {s t : EventStream} (hr : r.stream = some s) (hq : q.stream = some t)
      (hplace : r.place = q.place) (hevents : s.events.map Prod.snd = t.events.map Prod.snd) : Alike r q
  | finished {r q : Reader} (hr : r.stream.isSome) (hq : q.stream.isSome) (hplace : r.place = .finished)
      (hplace' : q.place = .finished) : Alike r q

theorem readFrom_alike {s t : EventStream} (hevents : s.events.map Prod.snd = t.events.map Prod.snd) (stage : Stage)
    (r q : Reader) :
    (r.readFrom s stage).result.toOption = (q.readFrom t stage).result.toOption ∧
      Alike (r.readFrom s stage).state (q.readFrom t stage).state := by
  obtain ⟨hresult, hstate⟩ := readEvents_alike hevents (rfl : stage.unlined = stage.unlined)
  unfold readFrom
  generalize readEvents s stage = outcome at hresult hstate
  generalize readEvents t stage = outcome' at hresult hstate
  obtain ⟨result, state, notices⟩ := outcome
  obtain ⟨result', state', notices'⟩ := outcome'
  dsimp only at hresult hstate
  cases result with
  | error e =>
    cases result' with
    | error e' => exact ⟨rfl, .finished rfl rfl rfl rfl⟩
    | ok found => cases hresult
  | ok found =>
    cases result' with
    | error e' => cases hresult
    | ok found' =>
      cases hresult
      match found with
      | none => exact ⟨rfl, .finished rfl rfl rfl rfl⟩
      | some (record, true) => exact ⟨rfl, .finished rfl rfl rfl rfl⟩
      | some (record, false) => exact ⟨rfl, .underway rfl rfl rfl (hstate record rfl)⟩

namespace Alike

variable {r q : Reader}

/-- A call gives the same of both, an error apart. -/
theorem read (h : Alike r q) :
    r.read.result.toOption = q.read.result.toOption ∧ Alike r.read.state q.read.state := by
  cases h with
  | @underway s t hr hq hplace hevents =>
    rw [Reader.read, Reader.read, hr, hq, ← hplace]
    dsimp only
    cases hr' : r.place with
    | start => exact readFrom_alike hevents .root r q
    | inCollection => exact readFrom_alike hevents .member r q
    | finished => exact ⟨rfl, .underway hr hq hplace hevents⟩
  | finished hr hq hplace hplace' =>
    rw [read_finished hr hplace, read_finished hq hplace']
    exact ⟨rfl, .finished hr hq hplace hplace'⟩

/-- So do all calls. -/
theorem after (h : Alike r q) (k : Nat) :
    ((RecordReader.xml r).after k).read.result.toOption = ((RecordReader.xml q).after k).read.result.toOption := by
  induction k generalizing r q with
  | zero => exact h.read.1
  | succ k ih => exact ih h.read.2

end Alike

end Reader

/-! ## Main result -/

/-- The scanner that a reader of an input begins with. -/
def Input.scanner (input : Input) : Scanner := Scanner.ofBytes input.bytes input.supply input.broken

theorem stream_ofInput (input : Input) : (Reader.ofInput input).stream = some ⟨input.scanner, none⟩ := rfl

/-- **Neither the pieces of character data count nor what is passed over.** If no token is at fault, the events of a
stream are what the tokens are converted to, in order, with each longest run of character data in one piece. If the
same character data comes in other pieces, or with comments and instructions in between, each call of a reader gives
the same record, or none, or fails as well. -/
theorem read_of_recut {s : Scanner} {found : List (Option Event)} (h : s.converted = some found) :
    (EventStream.mk s none).events.map Prod.snd = joinText found.reduceOption ++ [.endOfDocument] ∧
      ∀ (t : Scanner) (others : List (Option Event)), t.converted = some others →
        Relation.EqvGen Recut found others →
        ∀ r q : Reader, r.stream = some ⟨s, none⟩ → q.stream = some ⟨t, none⟩ → r.place = q.place →
          ∀ k, ((RecordReader.xml r).after k).read.result.toOption =
            ((RecordReader.xml q).after k).read.result.toOption := by
  have hevents := Xml.map_events_of_converted h
  refine ⟨hevents, fun t others hothers hrecut r q hr hq hplace k => ?_⟩
  refine (Reader.Alike.underway hr hq hplace ?_).after k
  rw [hevents, Xml.map_events_of_converted hothers, Xml.joinText_of_recut hrecut]

/-- A document of one record with a control number that is written as given. -/
def numbered (written : String) : Input :=
  .ofBytes (Utf8.encode ("<record><leader>00000nam a2200000   4500</leader><controlfield tag=\"001\">" ++
    written ++ "</controlfield></record>"))

/-- What the tokens of such a document are converted to, and those of its control number to `pieces`. -/
def numberedTokens (pieces : List (Option Event)) : List (Option Event) :=
  [some (.opening "record" []), some (.opening "leader" []), some (.text "00000nam a2200000   4500"),
    some (.closing "leader"), some (.opening "controlfield" [("tag", "001")])] ++ pieces ++
    [some (.closing "controlfield"), some (.closing "record")]

/-- A number in one piece, and the same number in three with a comment and an instruction in between. -/
theorem read_of_recut_numbered :
    let input := numbered "a&amp;b"
    let other := numbered "a<!-- c --><![CDATA[&]]><?p q?>b"
    let found := numberedTokens [some (.text "a&b")]
    let others := numberedTokens [some (.text "a"), none, some (.text "&"), none, some (.text "b")]
    input.scanner.converted = some found ∧ other.scanner.converted = some others ∧
      Relation.EqvGen Recut found others ∧
      (EventStream.mk other.scanner none).events.map Prod.snd = found.reduceOption ++ [.endOfDocument] ∧
      (RecordReader.xml (.ofInput other)).read.result.toOption =
        some (some (Record.ofParts (leaderAt "00000nam a2200000   4500") [⟨Tag.controlNumber, "a&b"⟩])) := by
  intro input other found others
  have hinput : input.scanner.converted = some found := by decide +kernel
  have hother : other.scanner.converted = some others := by decide +kernel
  have hcut : Recut found (numberedTokens [some (.text "a"), some (.text "&b")]) :=
    (Recut.cut [] [] "a" "&b").within _ _
  have hcut' : Recut (numberedTokens [some (.text "a"), some (.text "&b")])
      (numberedTokens [some (.text "a"), some (.text "&"), some (.text "b")]) :=
    (Recut.cut [some (.text "a")] [] "&" "b").within _ _
  have hcomment : Recut (numberedTokens [some (.text "a"), some (.text "&"), some (.text "b")])
      (numberedTokens [some (.text "a"), none, some (.text "&"), some (.text "b")]) :=
    (Recut.passOver [some (.text "a")] [some (.text "&"), some (.text "b")]).within _ _
  have hinstruction : Recut (numberedTokens [some (.text "a"), none, some (.text "&"), some (.text "b")]) others :=
    (Recut.passOver [some (.text "a"), none, some (.text "&")] [some (.text "b")]).within _ _
  have hrecut : Relation.EqvGen Recut found others :=
    .trans _ _ _ (.rel _ _ hcut) (.trans _ _ _ (.rel _ _ hcut')
      (.trans _ _ _ (.rel _ _ hcomment) (.rel _ _ hinstruction)))
  have hevents := (read_of_recut hother).1
  have hread := (read_of_recut hinput).2 _ _ hother hrecut _ _ (stream_ofInput input) (stream_ofInput other)
    (Eq.refl Place.start) 0
  refine ⟨hinput, hother, hrecut, hevents.trans ?_, hread.symm.trans ?_⟩
  · decide +kernel
  · decide +kernel

end Marc21.Slim
