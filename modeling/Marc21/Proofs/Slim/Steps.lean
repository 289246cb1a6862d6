import Marc21.Proofs.Slim.Grammar

/-!
What an event can make of a stage, said once (`react_makes`). Whatever the stages keep is proved by cases of
`Stage.Makes`, without another look at how a stage reacts.
-/

namespace Marc21.Slim

open Xml (Attributes Event)

/-- The ways in which an event that ends on the given line can be met, with what each of them asks for. -/
inductive Stage.Makes (line : Nat) : Stage → Event → Verdict → Prop where
  | failed (stage : Stage) (event : Event) (start : Nat) (fault : DocumentFault) :
      Makes line stage event (.failed (.malformedXml start fault))
  | collection {as : Attributes} (slimOnly : SlimOnly as) :
      Makes line .root (.opening "collection" as) (.goOn .member [])
  | lone {as : Attributes} (slimOnly : SlimOnly as) :
      Makes line .root (.opening "record" as) (.goOn (.leaderStart true) [])
  | record {as : Attributes} (slimOnly : SlimOnly as) :
      Makes line .member (.opening "record" as) (.goOn (.leaderStart false) [])
  | closed : Makes line .member (.closing "collection") .closed
  | openLeader (lone : Bool) (as : Attributes) :
      Makes line (.leaderStart lone) (.opening "leader" as) (.goOn (.leaderText lone line) [])
  | leaderText (lone : Bool) (start : Nat) (text : String) :
      Makes line (.leaderText lone start) (.text text) (.goOn (.leaderEnd lone start text) [])
  | closeLeader {stage : Stage} {lone : Bool} {start : Nat} {text : String} {leader : Leader}
      (hstage : stage = .leaderText lone start ∨ stage = .leaderEnd lone start text)
      (usable : leaderOfText text = .ok leader) :
      Makes line stage (.closing "leader") (.goOn (.fields ⟨lone, leader, [], false⟩) leader.notices)
  | openControl {d : Draft} {as : Attributes} {tag : Tag} (inTurn : d.dataSeen = false)
      (hasTag : requiredTag as "controlfield" = .ok tag) :
      Makes line (.fields d) (.opening "controlfield" as) (.goOn (.controlText d tag line) [])
  | controlText (d : Draft) (tag : Tag) (start : Nat) (text : String) :
      Makes line (.controlText d tag start) (.text text) (.goOn (.controlEnd d tag start text) [])
  | closeControl {stage : Stage} {d : Draft} {tag : Tag} {start : Nat} {text : String} (fields : List Field)
      (notices : List Notice) (hstage : stage = .controlText d tag start ∨ stage = .controlEnd d tag start text) :
      Makes line stage (.closing "controlfield") (.goOn (.fields { d with fields }) notices)
  | openData {d : Draft} {as : Attributes} {tag : Tag} {indicator1 indicator2 : Char}
      (hasTag : requiredTag as "datafield" = .ok tag)
      (hasIndicator1 : requiredChar as "datafield" "ind1" = .ok indicator1)
      (hasIndicator2 : requiredChar as "datafield" "ind2" = .ok indicator2) :
      Makes line (.fields d) (.opening "datafield" as)
        (.goOn (.subfields { d with dataSeen := true } ⟨tag, indicator1, indicator2, line, []⟩) [])
  | openSubfield {d : Draft} {f : DataDraft} {as : Attributes} {code : Char}
      (hasCode : requiredChar as "subfield" "code" = .ok code) :
      Makes line (.subfields d f) (.opening "subfield" as) (.goOn (.subfieldText d f code line) [])
  | subfieldText (d : Draft) (f : DataDraft) (code : Char) (start : Nat) (text : String) :
      Makes line (.subfieldText d f code start) (.text text) (.goOn (.subfieldEnd d f code start text) [])
  | closeSubfield {stage : Stage} {d : Draft} {f : DataDraft} {code : Char} {start : Nat} {text : String}
      (subfields : Subfields) (notices : List Notice)
      (hstage : stage = .subfieldText d f code start ∨ stage = .subfieldEnd d f code start text) :
      Makes line stage (.closing "subfield") (.goOn (.subfields d { f with subfields }) notices)
  | closeData (d : Draft) (f : DataDraft) (fields : List Field) (notices : List Notice) :
      Makes line (.subfields d f) (.closing "datafield") (.goOn (.fields { d with fields }) notices)
  | closeRecord {d : Draft} (among : d.lone = false) :
      Makes line (.fields d) (.closing "record") (.record d.finish false)
  | closeLone {d : Draft} (alone : d.lone = true) :
      Makes line (.fields d) (.closing "record") (.goOn (.trailer d.finish) [])
  | endOfDocument (r : Record) : Makes line (.trailer r) .endOfDocument (.record r true)

namespace Stage

section

variable {line start : Nat} {stage : Stage} {event : Event} {d : Draft} {f : DataDraft} {text : String}

theorem unexpected_makes (wanted : Expectation) : stage.Makes line event (unexpected line wanted event) :=
  .failed stage event line _

/-- What is asked first is found, or the document is at fault. -/
theorem answer_bind_makes {α : Type} {x : Except DocumentFault α} {f : α → Except DocumentFault Verdict}
    (h : ∀ a, x = .ok a → stage.Makes line event (answer start (f a))) :
    stage.Makes line event (answer start (x >>= f)) := by
  cases x with
  | error fault => exact .failed stage event start fault
  | ok a => exact h a rfl

theorem withLeader_makes {lone : Bool} (h : stage = .leaderText lone start ∨ stage = .leaderEnd lone start text) :
    stage.Makes line (.closing "leader") (withLeader lone start text) :=
  answer_bind_makes fun _ usable => .closeLeader h usable

theorem withControlField_makes {tag : Tag}
    (h : stage = .controlText d tag start ∨ stage = .controlEnd d tag start text) :
    stage.Makes line (.closing "controlfield") (withControlField d tag start text) := by
  unfold withControlField
  split
  · exact .closeControl d.fields _ h
  · exact .closeControl _ [] h

theorem withSubfield_makes {code : Char}
    (h : stage = .subfieldText d f code start ∨ stage = .subfieldEnd d f code start text) :
    stage.Makes line (.closing "subfield") (withSubfield d f code start text) := by
  unfold withSubfield
  split
  · exact .closeSubfield f.subfields _ h
  · exact .closeSubfield _ [] h

theorem withDataField_makes : (subfields d f).Makes line (.closing "datafield") (withDataField d f) := by
  unfold withDataField
  split
  · exact .closeData d f d.fields _
  · exact .closeData d f _ []

theorem openField_makes (name : String) (as : Attributes) :
    (fields d).Makes line (.opening name as) (openField d line (.opening name as) name as) := by
  unfold openField
  split
  · next hname =>
    subst hname
    split
    · exact .failed _ _ line .controlFieldLate
    · next hseen =>
      exact answer_bind_makes fun _ hasTag => .openControl (by simpa using hseen) hasTag
  · split
    · next hname =>
      subst hname
      exact answer_bind_makes fun _ hasTag => answer_bind_makes fun _ hasIndicator1 =>
        answer_bind_makes fun _ hasIndicator2 => .openData hasTag hasIndicator1 hasIndicator2
    · exact unexpected_makes .fieldOrEnd

end

/-- **What a stage makes of an event** is one of these. -/
theorem react_makes (stage : Stage) (line : Nat) (event : Event) :
    stage.Makes line event (stage.react line event) := by
  -- Either the event is out of order, or the stage waits for it in just one way.
  fun_cases react stage line event
  all_goals first
    | exact unexpected_makes _
    | exact answer_bind_makes fun _ h => .collection (checkNamespaces_eq_ok.1 h)
    | exact answer_bind_makes fun _ h => .lone (checkNamespaces_eq_ok.1 h)
    | exact answer_bind_makes fun _ h => .record (checkNamespaces_eq_ok.1 h)
    | exact answer_bind_makes fun _ hasCode => .openSubfield hasCode
    | exact withLeader_makes (by simp)
    | exact withControlField_makes (by simp)
    | exact withSubfield_makes (by simp)
    | exact withDataField_makes
    | exact openField_makes _ _
    | exact .closeLone (by assumption)
    | exact .closeRecord (Bool.eq_false_iff.2 (by assumption))
    | constructor

end Stage

end Marc21.Slim
