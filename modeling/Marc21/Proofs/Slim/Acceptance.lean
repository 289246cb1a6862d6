import Marc21.Proofs.Slim.Grammar

/-!
The stages take the trees of the grammar and nothing else (`read?_root`). For each stage it is said what may
come: an element, behind which another stage decides, or the end of the element around it. Where elements of one
kind may repeat, one such step settles the whole series (`iff_exists_series`), so both directions are proved at
once, from the inner elements to the outer ones.
-/

namespace Marc21.Slim

open Xml (Attributes Event)

/-! ## Events at the front -/

/-- Some events come first, on whatever lines, and the others meet a condition. -/
def Begins : List Event → (List (Nat × Event) → Prop) → List (Nat × Event) → Prop
  | [], p, es => p es
  | _ :: _, _, [] => False
  | event :: events, p, found :: es => found.2 = event ∧ Begins events p es

section

variable {events more : List Event} {p q : List (Nat × Event) → Prop} {es : List (Nat × Event)}

theorem begins_append : Begins (events ++ more) p es ↔ Begins events (Begins more p) es := by
  induction events generalizing es with
  | nil => exact Iff.rfl
  | cons event events ih =>
    cases es with
    | nil => exact Iff.rfl
    | cons found es => exact and_congr_right fun _ => ih

theorem begins_mono (h : Begins events p es)
    (hpq : ∀ rest, rest.length + events.length = es.length → p rest → q rest) : Begins events q es := by
  induction events generalizing es with
  | nil => exact hpq es rfl h
  | cons event events ih =>
    cases es with
    | nil => exact h
    | cons found es =>
      obtain ⟨hfound, h⟩ := h
      exact ⟨hfound, ih h fun rest hrest => hpq rest (congrArg Nat.succ hrest)⟩

theorem begins_congr (hpq : ∀ rest, p rest ↔ q rest) : Begins events p es ↔ Begins events q es :=
  ⟨fun h => begins_mono h fun rest _ => (hpq rest).1, fun h => begins_mono h fun rest _ => (hpq rest).2⟩

/-- What is found behind the events can be named in front of them. -/
theorem begins_exists {α : Sort _} {p : α → List (Nat × Event) → Prop} :
    Begins events (fun rest => ∃ x, p x rest) es ↔ ∃ x, Begins events (p x) es := by
  induction events generalizing es with
  | nil => exact Iff.rfl
  | cons event events ih =>
    cases es with
    | nil => simp [Begins]
    | cons found es => simp [Begins, ih]

theorem begins_and {c : Prop} : Begins events (fun rest => c ∧ p rest) es ↔ c ∧ Begins events p es := by
  simp only [← exists_prop, begins_exists]

theorem begins_const {c : Prop} :
    Begins events (fun _ => c) es ↔ c ∧ events <+: es.map Prod.snd := by
  induction events generalizing es with
  | nil => simp [Begins]
  | cons event events ih =>
    cases es with
    | nil => simp [Begins]
    | cons found es =>
      rw [Begins, ih, List.map_cons, List.cons_prefix_cons]
      constructor
      · rintro ⟨rfl, hc, hprefix⟩
        exact ⟨hc, rfl, hprefix⟩
      · rintro ⟨hc, rfl, hprefix⟩
        exact ⟨rfl, hc, hprefix⟩

end

/-- Where each element of one kind leads back to the same question, some elements lead to the question behind
them. -/
theorem iff_exists_series {σ ε : Type} (events : ε → List Event) (add : ε → σ → σ)
    (hne : ∀ x, events x ≠ []) {p q : σ → List (Nat × Event) → Prop}
    (hstep : ∀ s es, p s es ↔ (∃ x, Begins (events x) (p (add x s)) es) ∨ q s es) (s : σ)
    (es : List (Nat × Event)) :
    p s es ↔ ∃ xs : List ε, Begins (xs.flatMap events) (q (xs.foldl (fun s x => add x s) s)) es := by
  constructor
  · intro h
    generalize hn : es.length = n
    induction n using Nat.strongRecOn generalizing s es with
    | ind n ih =>
      rcases (hstep s es).1 h with ⟨x, hx⟩ | hq
      · -- An element takes an event at least, so there is less behind it.
        have hpos : 0 < (events x).length := List.length_pos_iff.2 (hne x)
        have hxs : Begins (events x) (fun rest => ∃ xs : List ε,
            Begins (xs.flatMap events) (q (xs.foldl (fun s x => add x s) (add x s))) rest) es :=
          begins_mono hx fun rest hrest hp => ih rest.length (by omega) _ rest hp rfl
        obtain ⟨xs, hxs⟩ := begins_exists.1 hxs
        refine ⟨x :: xs, ?_⟩
        rw [List.flatMap_cons, begins_append]
        exact hxs
      · exact ⟨[], hq⟩
  · rintro ⟨xs, h⟩
    induction xs generalizing s es with
    | nil => exact (hstep s es).2 (.inr h)
    | cons x xs ih =>
      rw [List.flatMap_cons, begins_append] at h
      exact (hstep s es).2 (.inl ⟨x, begins_mono h fun rest _ hrest => ih _ _ hrest⟩)

/-! ## Following events -/

/-- What a verdict comes to, if the grammar goes on as given. -/
def Verdict.resume (go : Stage → Option (List Record)) : Verdict → Option (List Record)
  | .goOn next _ => go next
  | .record r lone => if lone then some [r] else (go .member).map (r :: ·)
  | .closed => some []
  | .failed _ => none

@[simp] theorem resume_unexpected (go : Stage → Option (List Record)) (line : Nat) (wanted : Expectation)
    (found : Event) : (Stage.unexpected line wanted found).resume go = none := rfl

/-- The records that the grammar takes from events, none of which it passes over. -/
def Stage.read? : List (Nat × Event) → Stage → Option (List Record)
  | [], _ => none
  | (line, event) :: rest, stage => (stage.react line event).resume (read? rest)

section

variable {go : Stage → Option (List Record)} {line : Nat} {rs : List Record}

theorem resume_answer_bind {α : Type} {x : Except DocumentFault α} {f : α → Except DocumentFault Verdict} :
    (Stage.answer line (x >>= f)).resume go = some rs ↔
      ∃ a, x = .ok a ∧ (Stage.answer line (f a)).resume go = some rs := by
  cases x with
  | error fault => simp [bind, Except.bind, Stage.answer, Verdict.resume]
  | ok a => simp [bind, Except.bind]

theorem resume_checkNamespaces {as : Attributes} {verdict : Verdict} :
    (Stage.answer line (checkNamespaces as >>= fun _ => pure verdict)).resume go = some rs ↔
      SlimOnly as ∧ verdict.resume go = some rs := by
  rw [resume_answer_bind, ← checkNamespaces_eq_ok]
  constructor
  · rintro ⟨⟨⟩, h⟩
    exact h
  · intro h
    exact ⟨(), h⟩

theorem resume_answer_pure {verdict : Verdict} :
    (Stage.answer line (pure verdict)).resume go = verdict.resume go := rfl

end

/-! ## Elements of text -/

/-- At a stage the content and the closing tag of an element of text are awaited. Once there is content, only
the closing tag is. -/
structure Awaits (name : String) (a : Stage) (b : String → Stage) (done : String → Verdict) : Prop where
  react_eq : ∀ line event, a.react line event = match event with
    | .text content => .goOn (b content) []
    | .closing found =>
      if found = name then done "" else Stage.unexpected line (.textOrClosing name) event
    | _ => Stage.unexpected line (.textOrClosing name) event
  react_behind : ∀ line content event, (b content).react line event = match event with
    | .closing found =>
      if found = name then done content else Stage.unexpected line (.closing name) event
    | _ => Stage.unexpected line (.closing name) event

theorem awaits_leader (lone : Bool) (start : Nat) :
    Awaits "leader" (.leaderText lone start) (.leaderEnd lone start) (Stage.withLeader lone start) where
  react_eq line event := by cases event <;> rfl
  react_behind line content event := by cases event <;> rfl

theorem awaits_control (d : Draft) (tag : Tag) (start : Nat) :
    Awaits "controlfield" (.controlText d tag start) (.controlEnd d tag start)
      (Stage.withControlField d tag start) where
  react_eq line event := by cases event <;> rfl
  react_behind line content event := by cases event <;> rfl

theorem awaits_subfield (d : Draft) (f : DataDraft) (code : Char) (start : Nat) :
    Awaits "subfield" (.subfieldText d f code start) (.subfieldEnd d f code start)
      (Stage.withSubfield d f code start) where
  react_eq line event := by cases event <;> rfl
  react_behind line content event := by cases event <;> rfl

section

variable {es : List (Nat × Event)} {rs : List Record} {name : String} {a : Stage} {b : String → Stage}
  {done : String → Verdict}

theorem Awaits.read?_behind (h : Awaits name a b done) (content : String) :
    Stage.read? es (b content) = some rs ↔
      Begins [.closing name] (fun rest => (done content).resume (Stage.read? rest) = some rs) es := by
  cases es with
  | nil => simp [Stage.read?, Begins]
  | cons found rest =>
    obtain ⟨line, event⟩ := found
    rw [Stage.read?, h.react_behind, Begins, Begins]
    cases event with
    | closing found => by_cases hfound : found = name <;> simp [hfound]
    | opening => simp
    | text => simp
    | endOfDocument => simp

/-- An element of text has one piece of character data or none. -/
theorem Awaits.read?_iff (h : Awaits name a b done) : Stage.read? es a = some rs ↔
    ∃ content : Option String, Begins (content.toList.map Event.text ++ [.closing name])
      (fun rest => (done (content.getD "")).resume (Stage.read? rest) = some rs) es := by
  rw [Option.exists]
  cases es with
  | nil => simp [Stage.read?, Begins]
  | cons found rest =>
    obtain ⟨line, event⟩ := found
    rw [Stage.read?, h.react_eq]
    cases event with
    | text content => simp [Begins, Verdict.resume, h.read?_behind]
    | closing found => by_cases hfound : found = name <;> simp [hfound, Begins]
    | opening => simp [Begins]
    | endOfDocument => simp [Begins]

end

/-! ## Subfields -/

section

variable {es : List (Nat × Event)} {rs : List Record}

theorem foldl_keep {α β : Type} (keep : α → Option β) (xs : List α) (kept : List β) :
    xs.foldl (fun kept x => (keep x).toList ++ kept) kept = (xs.filterMap keep).reverse ++ kept := by
  induction xs generalizing kept with
  | nil => rfl
  | cons x xs ih =>
    rw [List.foldl_cons, ih]
    cases hx : keep x with
    | none => simp [hx]
    | some y => simp [hx]

theorem textEvents_ne_nil (name : String) (as : Attributes) (content : Option String) :
    textEvents name as content ≠ [] := List.cons_ne_nil _ _

theorem resume_withSubfield (go : Stage → Option (List Record)) (d : Draft) (f : DataDraft)
    (e : SubfieldElement) (line : Nat) : (Stage.withSubfield d f e.code line (e.content.getD "")).resume go =
      go (.subfields d { f with subfields := e.subfield?.toList ++ f.subfields }) := by
  unfold Stage.withSubfield SubfieldElement.subfield?
  split <;> rfl

theorem read?_subfield (d : Draft) (f : DataDraft) (as : Attributes) (line : Nat) :
    ((Stage.subfields d f).react line (.opening "subfield" as)).resume (Stage.read? es) = some rs ↔
      ∃ e : SubfieldElement, e.attributes = as ∧
        Begins (e.content.toList.map Event.text ++ [.closing "subfield"])
          (fun rest => Stage.read? rest
            (.subfields d { f with subfields := e.subfield?.toList ++ f.subfields }) = some rs) es := by
  rw [Stage.react, if_pos rfl, resume_answer_bind]
  simp only [requiredChar_eq_ok]
  constructor
  · rintro ⟨code, hcode, h⟩
    rw [resume_answer_pure, Verdict.resume, (awaits_subfield d f code line).read?_iff] at h
    obtain ⟨content, h⟩ := h
    refine ⟨⟨as, code, content, hcode⟩, rfl, (begins_congr fun rest => ?_).1 h⟩
    rw [← resume_withSubfield (Stage.read? rest) d f ⟨as, code, content, hcode⟩ line]
  · rintro ⟨e, rfl, h⟩
    refine ⟨e.code, e.hasCode, ?_⟩
    rw [resume_answer_pure, Verdict.resume, (awaits_subfield d f e.code line).read?_iff]
    refine ⟨e.content, (begins_congr fun rest => ?_).2 h⟩
    rw [resume_withSubfield]

/-- One more subfield, or the end of the data field. -/
theorem read?_subfields_step (d : Draft) (f : DataDraft) :
    Stage.read? es (.subfields d f) = some rs ↔
      (∃ e : SubfieldElement, Begins e.events (fun rest => Stage.read? rest
          (.subfields d { f with subfields := e.subfield?.toList ++ f.subfields }) = some rs) es) ∨
        Begins [.closing "datafield"]
          (fun rest => (Stage.withDataField d f).resume (Stage.read? rest) = some rs) es := by
  cases es with
  | nil => simp [Stage.read?, Begins, SubfieldElement.events, textEvents]
  | cons found rest =>
    obtain ⟨line, event⟩ := found
    simp only [Stage.read?, Begins, SubfieldElement.events, textEvents]
    cases event with
    | opening name as =>
      by_cases hname : name = "subfield"
      · subst hname
        rw [read?_subfield]
        simp [eq_comm (a := as)]
      · simp [Stage.react, hname]
    | closing name =>
      by_cases hname : name = "datafield"
      · simp [Stage.react, hname]
      · simp [Stage.react, hname]
    | text content => simp [Stage.react]
    | endOfDocument => simp [Stage.react]

theorem read?_subfields (d : Draft) (f : DataDraft) :
    Stage.read? es (.subfields d f) = some rs ↔ ∃ subfields : List SubfieldElement,
      Begins (subfields.flatMap SubfieldElement.events ++ [.closing "datafield"])
        (fun rest => (Stage.withDataField d { f with subfields :=
          (subfields.filterMap SubfieldElement.subfield?).reverse ++ f.subfields }).resume
            (Stage.read? rest) = some rs) es := by
  have hseries := iff_exists_series SubfieldElement.events (fun e kept => e.subfield?.toList ++ kept)
    (fun e => textEvents_ne_nil _ _ _)
    (p := fun kept es => Stage.read? es (.subfields d { f with subfields := kept }) = some rs)
    (q := fun kept es => Begins [.closing "datafield"] (fun rest =>
      (Stage.withDataField d { f with subfields := kept }).resume (Stage.read? rest) = some rs) es)
    (fun kept es => read?_subfields_step d { f with subfields := kept })
  simp only [begins_append, ← foldl_keep]
  exact hseries f.subfields es

end

/-! ## Fields -/

/-- What the end of a record makes of it. -/
def Draft.close (d : Draft) : Verdict := if d.lone then .goOn (.trailer d.finish) [] else .record d.finish false

section

variable {es : List (Nat × Event)} {rs : List Record}

theorem resume_withControlField (go : Stage → Option (List Record)) (d : Draft) (e : ControlElement)
    (line : Nat) : (Stage.withControlField d e.tag line (e.content.getD "")).resume go =
      go (.fields { d with fields := e.field?.toList ++ d.fields }) := by
  unfold Stage.withControlField ControlElement.field?
  split <;> rfl

theorem resume_withDataField (go : Stage → Option (List Record)) (d : Draft) (e : DataElement)
    (line : Nat) :
    (Stage.withDataField d ⟨e.tag, e.indicator1, e.indicator2, line, e.values.reverse⟩).resume go =
      go (.fields { d with fields := e.field?.toList ++ d.fields }) := by
  unfold Stage.withDataField DataElement.field?
  by_cases hvalues : e.values = []
  · rw [if_pos (by simp [hvalues]), if_pos hvalues]
    rfl
  · rw [if_neg (by simp [hvalues]), if_neg hvalues, List.reverse_reverse]
    rfl

theorem read?_control (d : Draft) (as : Attributes) (line : Nat) :
    ((Stage.fields d).react line (.opening "controlfield" as)).resume (Stage.read? es) = some rs ↔
      d.dataSeen = false ∧ ∃ e : ControlElement, e.attributes = as ∧
        Begins (e.content.toList.map Event.text ++ [.closing "controlfield"])
          (fun rest => Stage.read? rest (.fields { d with fields := e.field?.toList ++ d.fields }) = some rs)
          es := by
  rw [Stage.react, Stage.openField, if_pos rfl]
  by_cases hseen : d.dataSeen = true
  · simp [hseen, Stage.answer, Verdict.resume, throw, throwThe, MonadExceptOf.throw, bind, Except.bind]
  · rw [if_neg hseen, and_iff_right (Bool.eq_false_iff.2 hseen)]
    simp only [resume_answer_bind, requiredTag_eq_ok]
    constructor
    · rintro ⟨tag, htag, h⟩
      rw [resume_answer_pure, Verdict.resume, (awaits_control d tag line).read?_iff] at h
      obtain ⟨content, h⟩ := h
      refine ⟨⟨as, tag, content, htag⟩, rfl, (begins_congr fun rest => ?_).1 h⟩
      rw [← resume_withControlField (Stage.read? rest) d ⟨as, tag, content, htag⟩ line]
    · rintro ⟨e, rfl, h⟩
      refine ⟨e.tag, e.hasTag, ?_⟩
      rw [resume_answer_pure, Verdict.resume, (awaits_control d e.tag line).read?_iff]
      refine ⟨e.content, (begins_congr fun rest => ?_).2 h⟩
      rw [resume_withControlField]

theorem read?_data (d : Draft) (as : Attributes) (line : Nat) :
    ((Stage.fields d).react line (.opening "datafield" as)).resume (Stage.read? es) = some rs ↔
      ∃ e : DataElement, e.attributes = as ∧
        Begins (e.subfields.flatMap SubfieldElement.events ++ [.closing "datafield"])
          (fun rest => Stage.read? rest
            (.fields { d with fields := e.field?.toList ++ d.fields, dataSeen := true }) = some rs) es := by
  rw [Stage.react, Stage.openField, if_neg (by decide), if_pos rfl]
  simp only [resume_answer_bind, requiredTag_eq_ok, requiredChar_eq_ok]
  constructor
  · rintro ⟨tag, htag, indicator1, hfirst, indicator2, hsecond, h⟩
    rw [resume_answer_pure, Verdict.resume, read?_subfields] at h
    obtain ⟨subfields, h⟩ := h
    let e : DataElement := ⟨as, tag, indicator1, indicator2, subfields, htag, hfirst, hsecond⟩
    refine ⟨e, rfl, (begins_congr fun rest => ?_).1 h⟩
    rw [List.append_nil, ← resume_withDataField (Stage.read? rest) { d with dataSeen := true } e line]
    rfl
  · rintro ⟨e, rfl, h⟩
    refine ⟨e.tag, e.hasTag, e.indicator1, e.hasIndicator1, e.indicator2, e.hasIndicator2, ?_⟩
    rw [resume_answer_pure, Verdict.resume, read?_subfields]
    refine ⟨e.subfields, (begins_congr fun rest => ?_).2 h⟩
    rw [List.append_nil, ← resume_withDataField (Stage.read? rest) { d with dataSeen := true } e line]
    rfl

/-- One more field, of which a control field may not come behind a data field, or the end of the record. -/
theorem read?_fields_step (d : Draft) :
    Stage.read? es (.fields d) = some rs ↔
      (∃ e : ControlElement, d.dataSeen = false ∧ Begins e.events (fun rest => Stage.read? rest
          (.fields { d with fields := e.field?.toList ++ d.fields }) = some rs) es) ∨
        (∃ e : DataElement, Begins e.events (fun rest => Stage.read? rest
          (.fields { d with fields := e.field?.toList ++ d.fields, dataSeen := true }) = some rs) es) ∨
        Begins [.closing "record"] (fun rest => d.close.resume (Stage.read? rest) = some rs) es := by
  cases es with
  | nil => simp [Stage.read?, Begins, ControlElement.events, textEvents, DataElement.events]
  | cons found rest =>
    obtain ⟨line, event⟩ := found
    simp only [Stage.read?, Begins, ControlElement.events, textEvents, DataElement.events]
    cases event with
    | opening name as =>
      by_cases hcontrol : name = "controlfield"
      · subst hcontrol
        rw [read?_control]
        simp [eq_comm (a := as)]
      · by_cases hdata : name = "datafield"
        · subst hdata
          rw [read?_data]
          simp [eq_comm (a := as)]
        · simp [Stage.react, Stage.openField, hcontrol, hdata]
    | closing name =>
      by_cases hname : name = "record"
      · simp [Stage.react, hname, Draft.close]
      · simp [Stage.react, hname]
    | text content => simp [Stage.react]
    | endOfDocument => simp [Stage.react]

/-- Behind a data field there are only data fields. -/
theorem read?_datas (lone : Bool) (leader : Leader) (kept : List Field) :
    Stage.read? es (.fields ⟨lone, leader, kept, true⟩) = some rs ↔ ∃ datas : List DataElement,
      Begins (datas.flatMap DataElement.events ++ [.closing "record"]) (fun rest =>
        (Draft.close ⟨lone, leader, (datas.filterMap DataElement.field?).reverse ++ kept, true⟩).resume
          (Stage.read? rest) = some rs) es := by
  have hseries := iff_exists_series DataElement.events (fun e kept => e.field?.toList ++ kept)
    (fun e => List.cons_ne_nil _ _)
    (p := fun kept es => Stage.read? es (.fields ⟨lone, leader, kept, true⟩) = some rs)
    (q := fun kept es => Begins [.closing "record"] (fun rest =>
      (Draft.close ⟨lone, leader, kept, true⟩).resume (Stage.read? rest) = some rs) es)
    (fun kept es => by
      rw [read?_fields_step]
      simp)
  simp only [begins_append, ← foldl_keep]
  exact hseries kept es

/-- Control fields come first. -/
theorem read?_fields (lone : Bool) (leader : Leader) (kept : List Field) :
    Stage.read? es (.fields ⟨lone, leader, kept, false⟩) = some rs ↔
      ∃ (controls : List ControlElement) (datas : List DataElement),
        Begins (controls.flatMap ControlElement.events ++
            (datas.flatMap DataElement.events ++ [.closing "record"])) (fun rest =>
          (Draft.close ⟨lone, leader, (datas.filterMap DataElement.field?).reverse ++
            ((controls.filterMap ControlElement.field?).reverse ++ kept), true⟩).resume
              (Stage.read? rest) = some rs) es := by
  -- The end of a record does not ask for data fields, so what may come behind the control fields is what may
  -- come behind a data field.
  have hclose (kept : List Field) : Draft.close ⟨lone, leader, kept, false⟩ =
      Draft.close ⟨lone, leader, kept, true⟩ := rfl
  have hseries := iff_exists_series ControlElement.events (fun e kept => e.field?.toList ++ kept)
    (fun e => textEvents_ne_nil _ _ _)
    (p := fun kept es => Stage.read? es (.fields ⟨lone, leader, kept, false⟩) = some rs)
    (q := fun kept es => Stage.read? es (.fields ⟨lone, leader, kept, true⟩) = some rs)
    (fun kept es => by
      rw [read?_fields_step, read?_fields_step ⟨lone, leader, kept, true⟩, hclose]
      simp)
  rw [hseries]
  refine exists_congr fun controls => ?_
  simp only [begins_append, ← begins_exists, ← foldl_keep]
  refine begins_congr fun rest => ?_
  simp only [read?_datas, begins_append, foldl_keep]

end

/-! ## Records -/

/-- What the end of a record makes of it. -/
def RecordElement.close (lone : Bool) (e : RecordElement) : Verdict :=
  if lone then .goOn (.trailer e.record) [] else .record e.record false

section

variable {es : List (Nat × Event)} {rs : List Record}

theorem resume_withLeader {go : Stage → Option (List Record)} {lone : Bool} {line : Nat} {text : String} :
    (Stage.withLeader lone line text).resume go = some rs ↔
      LeaderText text ∧ go (.fields ⟨lone, leaderAt text, [], false⟩) = some rs := by
  rw [Stage.withLeader, resume_answer_bind]
  simp only [leaderOfText_eq_ok]
  constructor
  · rintro ⟨leader, ⟨htext, rfl⟩, h⟩
    exact ⟨htext, h⟩
  · rintro ⟨htext, h⟩
    exact ⟨leaderAt text, ⟨htext, rfl⟩, h⟩

theorem not_leaderText_empty : ¬LeaderText "" := fun h => absurd h.length_eq (by decide)

theorem read?_leader (lone : Bool) :
    Stage.read? es (.leaderStart lone) = some rs ↔ ∃ e : LeaderElement, Begins e.events (fun rest =>
      Stage.read? rest (.fields ⟨lone, leaderAt e.text, [], false⟩) = some rs) es := by
  cases es with
  | nil => simp [Stage.read?, Begins, LeaderElement.events, textEvents]
  | cons found rest =>
    obtain ⟨line, event⟩ := found
    simp only [Stage.read?, Begins, LeaderElement.events, textEvents]
    cases event with
    | opening name as =>
      by_cases hname : name = "leader"
      · subst hname
        rw [Stage.react, if_pos rfl, Verdict.resume, (awaits_leader lone line).read?_iff]
        simp only [resume_withLeader, begins_and]
        constructor
        · rintro ⟨content, htext, h⟩
          cases content with
          | none => exact absurd htext not_leaderText_empty
          | some text => exact ⟨⟨as, text, htext⟩, rfl, h⟩
        · rintro ⟨e, heq, h⟩
          exact ⟨some e.text, e.usable, h⟩
      · simp [Stage.react, hname]
    | closing name => simp [Stage.react]
    | text content => simp [Stage.react]
    | endOfDocument => simp [Stage.react]

theorem read?_record (lone : Bool) {as : Attributes} (has : SlimOnly as) :
    Stage.read? es (.leaderStart lone) = some rs ↔ ∃ e : RecordElement, e.attributes = as ∧
      Begins e.body (fun rest => (e.close lone).resume (Stage.read? rest) = some rs) es := by
  have hclose (leader : LeaderElement) (controls : List ControlElement) (datas : List DataElement) :
      Draft.close ⟨lone, leaderAt leader.text, (datas.filterMap DataElement.field?).reverse ++
        ((controls.filterMap ControlElement.field?).reverse ++ []), true⟩ =
      (RecordElement.mk as has leader controls datas).close lone := by
    simp [Draft.close, Draft.finish, RecordElement.close, RecordElement.record]
  simp only [read?_leader, read?_fields, begins_exists, ← begins_append, hclose]
  constructor
  · rintro ⟨leader, controls, datas, h⟩
    exact ⟨⟨as, has, leader, controls, datas⟩, rfl, h⟩
  · rintro ⟨e, rfl, h⟩
    exact ⟨e.leader, e.controls, e.datas, h⟩

/-! ## Documents -/

theorem read?_record_of_member (as : Attributes) (line : Nat) (done : List Record) :
    ((Stage.member.react line (.opening "record" as)).resume (Stage.read? es)).map (done.reverse ++ ·) =
      some rs ↔ ∃ e : RecordElement, e.attributes = as ∧ Begins e.body (fun rest =>
        (Stage.read? rest .member).map ((e.record :: done).reverse ++ ·) = some rs) es := by
  have hlater (e : RecordElement) (rest : List (Nat × Event)) :
      ((e.close false).resume (Stage.read? rest)).map (done.reverse ++ ·) =
        (Stage.read? rest .member).map ((e.record :: done).reverse ++ ·) := by
    simp [RecordElement.close, Verdict.resume, Function.comp_def]
  rw [Stage.react, if_pos rfl]
  simp only [← hlater, Option.map_eq_some_iff, begins_exists, resume_checkNamespaces]
  constructor
  · rintro ⟨out, ⟨has, h⟩, hout⟩
    rw [Verdict.resume, read?_record false has] at h
    obtain ⟨e, he, h⟩ := h
    exact ⟨e, he, out, begins_mono h fun rest _ hrest => ⟨hrest, hout⟩⟩
  · rintro ⟨e, rfl, out, h⟩
    obtain ⟨hout, h⟩ := begins_and.1 ((begins_congr fun rest => and_comm).1 h)
    refine ⟨out, ⟨e.slimOnly, ?_⟩, hout⟩
    rw [Verdict.resume, read?_record false e.slimOnly]
    exact ⟨e, rfl, h⟩

/-- One more record, or the end of the collection. -/
theorem read?_member_step (done : List Record) :
    (Stage.read? es .member).map (done.reverse ++ ·) = some rs ↔
      (∃ e : RecordElement, Begins e.events (fun rest =>
          (Stage.read? rest .member).map ((e.record :: done).reverse ++ ·) = some rs) es) ∨
        Begins [.closing "collection"] (fun _ => done.reverse = rs) es := by
  cases es with
  | nil => simp [Stage.read?, Begins, RecordElement.events]
  | cons found rest =>
    obtain ⟨line, event⟩ := found
    simp only [Stage.read?, Begins, RecordElement.events]
    cases event with
    | opening name as =>
      by_cases hname : name = "record"
      · subst hname
        rw [read?_record_of_member]
        simp [eq_comm (a := as)]
      · simp [Stage.react, hname]
    | closing name =>
      by_cases hname : name = "collection"
      · simp [Stage.react, hname, Verdict.resume]
      · simp [Stage.react, hname]
    | text content => simp [Stage.react]
    | endOfDocument => simp [Stage.react]

theorem foldl_records (elements : List RecordElement) (done : List Record) :
    elements.foldl (fun done e => e.record :: done) done =
      (elements.map RecordElement.record).reverse ++ done := by
  induction elements generalizing done with
  | nil => rfl
  | cons e elements ih => simp [ih]

theorem read?_member : Stage.read? es .member = some rs ↔ ∃ elements : List RecordElement,
    elements.map RecordElement.record = rs ∧
      elements.flatMap RecordElement.events ++ [.closing "collection"] <+: es.map Prod.snd := by
  have hseries := iff_exists_series RecordElement.events (fun e done => e.record :: done)
    (fun e => List.cons_ne_nil _ _)
    (p := fun done es => (Stage.read? es .member).map (done.reverse ++ ·) = some rs)
    (q := fun done es => Begins [.closing "collection"] (fun _ => done.reverse = rs) es)
    (fun done es => read?_member_step done) [] es
  simp only [← begins_append, foldl_records] at hseries
  simpa [begins_const] using hseries

theorem read?_trailer (r : Record) :
    Stage.read? es (.trailer r) = some rs ↔ Begins [.endOfDocument] (fun _ => [r] = rs) es := by
  cases es with
  | nil => simp [Stage.read?, Begins]
  | cons found rest =>
    obtain ⟨line, event⟩ := found
    cases event with
    | endOfDocument => simp [Stage.read?, Stage.react, Verdict.resume, Begins]
    | _ => simp [Stage.read?, Stage.react, Begins]

theorem read?_root_collection (as : Attributes) (line : Nat) :
    ((Stage.root.react line (.opening "collection" as)).resume (Stage.read? es)) = some rs ↔
      SlimOnly as ∧ ∃ elements : List RecordElement, elements.map RecordElement.record = rs ∧
        elements.flatMap RecordElement.events ++ [.closing "collection"] <+: es.map Prod.snd := by
  rw [Stage.react, if_pos rfl, resume_checkNamespaces, Verdict.resume, read?_member]

theorem read?_root_record (as : Attributes) (line : Nat) :
    ((Stage.root.react line (.opening "record" as)).resume (Stage.read? es)) = some rs ↔
      ∃ e : RecordElement, e.attributes = as ∧ [e.record] = rs ∧
        e.body ++ [.endOfDocument] <+: es.map Prod.snd := by
  have htrailer (e : RecordElement) (rest : List (Nat × Event)) :
      (e.close true).resume (Stage.read? rest) = Stage.read? rest (.trailer e.record) := rfl
  rw [Stage.react, if_neg (by decide), if_pos rfl, resume_checkNamespaces, Verdict.resume]
  constructor
  · rintro ⟨has, h⟩
    obtain ⟨e, he, h⟩ := (read?_record true has).1 h
    simp only [htrailer, read?_trailer, ← begins_append] at h
    exact ⟨e, he, begins_const.1 h⟩
  · rintro ⟨e, rfl, h⟩
    refine ⟨e.slimOnly, (read?_record true e.slimOnly).2 ⟨e, rfl, ?_⟩⟩
    simp only [htrailer, read?_trailer, ← begins_append]
    exact begins_const.2 h

/-- **The grammar takes its documents and nothing else.** -/
theorem read?_root : Stage.read? es .root = some rs ↔
    ∃ document : Document, document.records = rs ∧ document.events <+: es.map Prod.snd := by
  cases es with
  | nil =>
    constructor
    · rintro ⟨⟩
    · rintro ⟨document, _, h⟩
      cases document with
      | collection as has elements => cases List.prefix_nil.1 h
      | lone e => cases List.prefix_nil.1 h
  | cons found rest =>
    obtain ⟨line, event⟩ := found
    rw [Stage.read?, List.map_cons]
    constructor
    · intro h
      cases event with
      | opening name as =>
        by_cases hcollection : name = "collection"
        · subst hcollection
          obtain ⟨has, elements, hrecords, h⟩ := (read?_root_collection as line).1 h
          exact ⟨.collection as has elements, hrecords, List.cons_prefix_cons.2 ⟨rfl, h⟩⟩
        · by_cases hrecord : name = "record"
          · subst hrecord
            obtain ⟨e, rfl, hrecords, h⟩ := (read?_root_record as line).1 h
            exact ⟨.lone e, hrecords, List.cons_prefix_cons.2 ⟨rfl, h⟩⟩
          · simp [Stage.react, hcollection, hrecord] at h
      | closing name => cases h
      | text content => cases h
      | endOfDocument => cases h
    · rintro ⟨document, hrecords, h⟩
      cases document with
      | collection as has elements =>
        obtain ⟨rfl, hrest⟩ := List.cons_prefix_cons.1 h
        exact (read?_root_collection as line).2 ⟨has, elements, hrecords, hrest⟩
      | lone e =>
        obtain ⟨rfl, hrest⟩ := List.cons_prefix_cons.1 h
        exact (read?_root_record e.attributes line).2 ⟨e, rfl, hrecords, hrest⟩

end

end Marc21.Slim
