import Marc21.Proofs.Slim.Errors
import Marc21.Proofs.Slim.Truncation

/-!
Namespaces in a document. A collection or a record that binds another namespace than that of MARC-XML ends the
reading (`readRaw?_of_foreign`). The elements within a record are not asked for theirs, so what they bind makes no
difference (`resume_step_unbound`). Together they are `readAll_namespaces`.
-/

namespace Marc21.Slim

open Xml (Apart Attributes Event EventStream)

/-- The elements that are asked for their namespaces. -/
def asksNamespaces (name : String) : Bool := name == "collection" || name == "record"

/-- Attributes that bind no namespace. -/
def bare (as : Attributes) : Attributes := as.filter fun a => a.1 ∉ ["xmlns", "xmlns:marc"]

/-- An event without the namespaces that it binds, if nobody asks for them. -/
def unbound : Event → Event
  | .opening name as => .opening name (if asksNamespaces name then as else bare as)
  | event => event

/-- The events of a document as a reader meets them, with the lines they end on. -/
def Input.met (input : Input) : List (Nat × Event) :=
  (EventStream.ofBytes input.bytes input.supply input.broken).events

/-- The events that the grammar takes up to its end, or up to the one that it does not accept. -/
def Stage.taken : List (Nat × Event) → Stage → List Event
  | [], _ => []
  | (line, event) :: rest, stage => event :: match stage.step line event with
    | .goOn next _ => taken rest next
    | .record _ lone => if lone then [] else taken rest .member
    | .closed => []
    | .failed _ => []

/-- The events that are taken to read a document to its end. -/
def Input.taken (input : Input) : List Event := Stage.taken input.met .root

instance (as : Attributes) : Decidable (SlimOnly as) :=
  inferInstanceAs (Decidable (∀ key ∈ ["xmlns", "xmlns:marc"], ∀ value ∈ as.value? key, value = slimNamespace))

/-! ## Elements that are asked -/

section

variable {name : String} {as : Attributes}

/-- Wherever such an element opens, it ends the reading. -/
theorem step_of_foreign (hname : asksNamespaces name = true) (has : ¬SlimOnly as) (stage : Stage) (line : Nat) :
    ∃ e, stage.step line (.opening name as) = .failed e := by
  have htag : (Event.opening name as).IsTag := trivial
  have hmakes := Stage.react_makes stage line (.opening name as)
  rw [Stage.step_of_isTag htag]
  generalize stage.react line (.opening name as) = verdict at hmakes ⊢
  cases hmakes with
  | failed => exact ⟨_, rfl⟩
  | collection slimOnly | lone slimOnly | record slimOnly => exact absurd slimOnly has
  | openLeader | openControl | openData | openSubfield => exact absurd hname (by decide)

theorem readRaw?_of_foreign {es : List (Nat × Event)} {stage : Stage} (hname : asksNamespaces name = true)
    (has : ¬SlimOnly as) (h : .opening name as ∈ Stage.taken es stage) : Stage.readRaw? es stage = none := by
  induction es generalizing stage with
  | nil => cases h
  | cons found es ih =>
    obtain ⟨line, event⟩ := found
    rw [Stage.readRaw?]
    rw [Stage.taken, List.mem_cons] at h
    rcases h with rfl | h
    · obtain ⟨e, hstep⟩ := step_of_foreign hname has stage line
      rw [hstep]
      rfl
    · cases hstep : stage.step line event with
      | goOn next notices =>
        rw [hstep] at h
        exact ih h
      | record r lone =>
        rw [hstep] at h
        cases lone with
        | true => cases h
        | false => exact congrArg (Option.map (r :: ·)) (ih h)
      | closed =>
        rw [hstep] at h
        cases h
      | failed e => rfl

end

/-! ## Elements that are not asked -/

section

variable {name element key : String} {as : Attributes}

theorem value?_bare (hkey : key ∉ ["xmlns", "xmlns:marc"]) : (bare as).value? key = as.value? key := by
  rw [Attributes.value?, Attributes.value?, bare, List.find?_filter]
  congr 2
  funext a
  by_cases ha : a.1 = key
  · simp [ha, hkey]
  · simp [ha]

theorem requiredTag_bare : requiredTag (bare as) element = requiredTag as element := by
  rw [requiredTag, required, value?_bare (by decide), requiredTag, required]

theorem requiredChar_bare (as : Attributes) (element : String) (hkey : key ∉ ["xmlns", "xmlns:marc"]) :
    requiredChar (bare as) element key = requiredChar as element key := by
  rw [requiredChar, required, value?_bare hkey, requiredChar, required]

theorem resume_openField_bare (go : Stage → Option (List Record)) (d : Draft) (line : Nat) :
    (Stage.openField d line (.opening name (bare as)) name (bare as)).resume go =
      (Stage.openField d line (.opening name as) name as).resume go := by
  have hfirst : requiredChar (bare as) name "ind1" = requiredChar as name "ind1" :=
    requiredChar_bare as name (by decide)
  have hsecond : requiredChar (bare as) name "ind2" = requiredChar as name "ind2" :=
    requiredChar_bare as name (by decide)
  unfold Stage.openField
  rw [requiredTag_bare, hfirst, hsecond]
  split
  · rfl
  · split
    · rfl
    · rfl

/-- Within a record only what an element needs is asked for. -/
theorem resume_react_bare (hname : asksNamespaces name = false) (go : Stage → Option (List Record))
    (stage : Stage) (line : Nat) : (stage.react line (.opening name (bare as))).resume go =
      (stage.react line (.opening name as)).resume go := by
  obtain ⟨hcollection, hrecord⟩ : name ≠ "collection" ∧ name ≠ "record" := by
    simpa [asksNamespaces] using hname
  cases stage with
  | root => simp [Stage.react, hcollection, hrecord]
  | member => simp [Stage.react, hrecord]
  | leaderStart lone => by_cases hleader : name = "leader" <;> simp [Stage.react, hleader]
  | fields d => exact resume_openField_bare go d line
  | subfields d f =>
    have hcode : requiredChar (bare as) name "code" = requiredChar as name "code" :=
      requiredChar_bare as name (by decide)
    by_cases hsubfield : name = "subfield"
    · rw [Stage.react, Stage.react, hcode, if_pos hsubfield, if_pos hsubfield]
    · simp [Stage.react, hsubfield]
  | _ => rfl

theorem resume_step_unbound (go : Stage → Option (List Record)) (stage : Stage) (line : Nat) (event : Event) :
    (stage.step line (unbound event)).resume go = (stage.step line event).resume go := by
  cases event with
  | opening name as =>
    have htag (as : Attributes) : (Event.opening name as).IsTag := trivial
    cases hname : asksNamespaces name with
    | true => rw [unbound, if_pos hname]
    | false =>
      rw [unbound, if_neg (by simp [hname]), Stage.step_of_isTag (htag _), Stage.step_of_isTag (htag _)]
      exact resume_react_bare hname go stage line
  | closing name => rfl
  | text content => rfl
  | endOfDocument => rfl

end

theorem readRaw?_unbound (es : List (Nat × Event)) (stage : Stage) :
    Stage.readRaw? (es.map fun found => (found.1, unbound found.2)) stage = Stage.readRaw? es stage := by
  induction es generalizing stage with
  | nil => rfl
  | cons found es ih =>
    rw [List.map_cons, Stage.readRaw?, resume_step_unbound, Stage.readRaw?, funext ih]

theorem isText_unbound {event : Event} : (unbound event).IsText ↔ event.IsText := by
  cases event <;> exact Iff.rfl

theorem apart_unbound {es : List (Nat × Event)} (h : Apart es) :
    Apart (es.map fun found => (found.1, unbound found.2)) := by
  rw [Apart, List.isChain_map]
  exact h.imp fun a b => by simp [isText_unbound]

/-- Lines are for messages alone. -/
theorem readRaw?_congr {es fs : List (Nat × Event)} (hes : Apart es) (hfs : Apart fs)
    (h : es.map Prod.snd = fs.map Prod.snd) (rs : List Record) :
    Stage.readRaw? es .root = some rs ↔ Stage.readRaw? fs .root = some rs := by
  rw [readRaw?_eq hes .root fun h => Bool.noConfusion h, readRaw?_eq hfs .root fun h => Bool.noConfusion h,
    read?_root, read?_root, map_significant_congr h]

/-! ## Main result -/

theorem readAll_eq_ok_iff_readRaw? (input : Input) (rs : List Record) :
    (RecordReader.xml (.ofInput input)).readAll.result = .ok rs ↔ Stage.readRaw? input.met .root = some rs := by
  have hleft : left? (.xml (.ofInput input)) = Stage.readRaw? input.met .root := by
    rw [left?_eq]
    exact leftAfter_readFrom _ _ .root
  rw [← hleft, left?]
  cases (RecordReader.xml (.ofInput input)).readAll.result <;> simp [Except.toOption]

/-- **Collections and records have to be bound to the namespace of MARC-XML, and nothing else has.** If a reader
meets a collection or a record that binds another one, then reading the document to its end fails with an error on
one of its lines. What leaders, fields and subfields bind makes no difference: two documents with the same events
apart from that are read alike. -/
theorem readAll_namespaces (input : Input) :
    ((∃ name as, asksNamespaces name = true ∧ .opening name as ∈ input.taken ∧ ¬SlimOnly as) →
      ∃ line fault,
        (RecordReader.xml (.ofInput input)).readAll.result = .error (.malformedXml line fault)) ∧
    ∀ other : Input,
      (input.met.map fun found => unbound found.2) = other.met.map (fun found => unbound found.2) →
      ∀ rs, (RecordReader.xml (.ofInput input)).readAll.result = .ok rs ↔
        (RecordReader.xml (.ofInput other)).readAll.result = .ok rs := by
  constructor
  · rintro ⟨name, as, hname, hmem, has⟩
    have hnone := readRaw?_of_foreign hname has hmem
    cases hread : (RecordReader.xml (.ofInput input)).readAll.result with
    | ok rs =>
      rw [(readAll_eq_ok_iff_readRaw? input rs).1 hread] at hnone
      cases hnone
    | error e =>
      obtain ⟨line, fault, rfl⟩ := malformed_of_readAll rfl hread
      exact ⟨line, fault, rfl⟩
  · intro other h rs
    have hapart (input : Input) : Apart (input.met.map fun found => (found.1, unbound found.2)) :=
      apart_unbound (EventStream.apart_events (EventStream.kept_ofBytes _ _ _))
    rw [readAll_eq_ok_iff_readRaw?, readAll_eq_ok_iff_readRaw?, ← readRaw?_unbound input.met,
      ← readRaw?_unbound other.met]
    exact readRaw?_congr (hapart input) (hapart other) (by simpa [Function.comp_def] using h) rs

/-- A record that is bound to another namespace, and where the reading ends for it. -/
example : (RecordReader.xml (.ofInput (.ofBytes (Utf8.encode
    "<collection>\n<record xmlns:marc=\"urn:x\"/></collection>")))).readAll.result =
      .error (.malformedXml 2 (.foreignNamespace "xmlns:marc" "urn:x")) := by decide +kernel

/-- A leader that is bound to another namespace is taken all the same. -/
theorem readAll_foreign_leader :
    let input := Input.ofBytes (Utf8.encode
      "<collection><record><leader xmlns=\"urn:x\">00000nam a2200000   4500</leader></record></collection>")
    .opening "leader" [("xmlns", "urn:x")] ∈ input.taken ∧ ¬SlimOnly [("xmlns", "urn:x")] ∧
      (RecordReader.xml (.ofInput input)).readAll.result =
        .ok [Record.ofParts (leaderAt "00000nam a2200000   4500") []] := by decide +kernel

end Marc21.Slim
