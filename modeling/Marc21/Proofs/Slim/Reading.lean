import Marc21.Slim.Reader
import Marc21.Slim.Writer
import Marc21.Proofs.Slim.Acceptance
import Marc21.Proofs.Xml.Document

/-!
Reading what was written, element by element. `Leads` says that the events of an element take the grammar
from one stage to another, and elements are put together by `Leads.trans`. White space between tags changes
no stage.
-/

namespace Marc21.Slim

open Xml (Attributes Event EventStream Layout Mark PlainName)

/-! ## Going on -/

/-- One event at a time. -/
theorem readEvents_of_next {s t : EventStream} {event : Event} (h : s.next = (.ok event, t)) (stage : Stage) :
    readEvents s stage = match stage.step t.line event with
      | .failed e => ⟨.error e, t, []⟩
      | .closed => ⟨.ok none, t, []⟩
      | .record r lone => ⟨.ok (some (r, lone)), t, []⟩
      | .goOn next notices => ⟨(readEvents t next).result, (readEvents t next).state,
          notices ++ (readEvents t next).notices⟩ := by
  rw [readEvents, h]
  dsimp only
  split <;> simp_all

/-- What is read from the first stream and stage is what is read from the second, apart from notices. -/
structure Leads (s : EventStream) (a : Stage) (t : EventStream) (b : Stage) : Prop where
  result_eq : (readEvents s a).result = (readEvents t b).result
  state_eq : (readEvents s a).state = (readEvents t b).state

namespace Leads

variable {s t u : EventStream} {a b c : Stage} {event : Event}

theorem refl (s : EventStream) (a : Stage) : Leads s a s a := ⟨rfl, rfl⟩

theorem trans (h : Leads s a t b) (k : Leads t b u c) : Leads s a u c :=
  ⟨h.result_eq.trans k.result_eq, h.state_eq.trans k.state_eq⟩

theorem of_next_eq (h : s.next = t.next) (a : Stage) : Leads s a t a := by
  have heq : readEvents s a = readEvents t a := by
    rw [readEvents, h, ← readEvents]
  exact ⟨congrArg Outcome.result heq, congrArg Outcome.state heq⟩

theorem of_step {notices : List Notice} (hnext : s.next = (.ok event, t))
    (hstep : a.step t.line event = .goOn b notices) : Leads s a t b := by
  constructor
  · rw [readEvents_of_next hnext, hstep]
  · rw [readEvents_of_next hnext, hstep]

/-- White space before a tag is passed over. -/
theorem of_brings (h : s.Brings event t) (ha : a.keepsText = false) :
    ∃ u, Leads s a u a ∧ u.next = (.ok event, t) := by
  rcases h with hnext | ⟨gap, u, hblank, hgap, hnext⟩
  · exact ⟨s, refl s a, hnext⟩
  · have hstep : a.step u.line (.text gap) = .goOn a [] := by
      rw [Stage.step, if_pos (by simp [Event.isSeparator, hblank, ha])]
    exact ⟨u, of_step hgap hstep, hnext⟩

end Leads

/-! ## Elements -/

section

variable {s t : EventStream} {l : Layout} {m : Mark} {ms : List Mark} {names names' : List Bytes}
  {event : Event} {a : Stage}

theorem Stage.step_of_isTag (h : event.IsTag) (a : Stage) (line : Nat) :
    a.step line event = a.react line event := by
  cases event with
  | opening name as => exact if_neg (by simp [Event.isSeparator])
  | closing name => exact if_neg (by simp [Event.isSeparator])
  | text content => exact h.elim
  | endOfDocument => exact h.elim

/-- White space is passed over up to the tag. -/
private theorem leads_to_tag (hs : s.Before l (m :: ms) names) (hm : m.Reads names event names')
    (ha : a.keepsText = false) : ∃ u t, Leads s a u a ∧ u.next = (.ok event, t) ∧
      t.Before (l.write m).2 ms names' := by
  obtain ⟨t, hbrings, ht⟩ := EventStream.next_tag hs hm
  obtain ⟨u, hgap, hnext⟩ := Leads.of_brings hbrings ha
  exact ⟨u, t, hgap, hnext, ht⟩

theorem leads_tag {b : Nat → Stage} (hs : s.Before l (m :: ms) names)
    (hm : m.Reads names event names') (ha : a.keepsText = false)
    (hreact : ∀ line, ∃ notices, a.react line event = .goOn (b line) notices) :
    ∃ t line, Leads s a t (b line) ∧ t.Before (l.write m).2 ms names' := by
  obtain ⟨u, t, hgap, hnext, ht⟩ := leads_to_tag hs hm ha
  obtain ⟨notices, hreact⟩ := hreact t.line
  rw [← Stage.step_of_isTag hm.isTag] at hreact
  exact ⟨t, t.line, hgap.trans (Leads.of_step hnext hreact), ht⟩

/-- An element of text takes a stage to what its content makes of it, if there is no content as well. -/
theorem leads_textElement {name content : String} {as : Attributes} {b : Nat → Stage}
    {c : Nat → String → Stage} {done : Nat → String → Verdict} {d : Stage}
    (hs : s.Before l (textElement name as content ++ ms) names) (hname : PlainName name)
    (hplain : ∀ a ∈ as, PlainName a.1) (hnodup : (as.map Prod.fst).Nodup) (ha : a.keepsText = false)
    (hkeeps : ∀ start, (b start).keepsText = true)
    (hawaits : ∀ start, Awaits name (b start) (c start) (done start))
    (hopen : ∀ line, a.react line (.opening name as) = .goOn (b line) [])
    (hdone : ∀ start, ∃ notices, done start content = .goOn d notices) :
    ∃ t, Leads s a t d ∧ t.Before (l.after (textElement name as content)) ms names := by
  obtain ⟨u, start, hstart, hu⟩ :=
    leads_tag hs (.start names hname hplain hnodup) ha fun line => ⟨[], hopen line⟩
  have hstop : Mark.Reads (.stop name) (Utf8.encode name :: names) (.closing name) names :=
    .stop names hname
  obtain ⟨notices, hdone⟩ := hdone start
  by_cases hcontent : content = ""
  · subst hcontent
    obtain ⟨t, hclosing, ht⟩ := EventStream.next_empty hu hstop
    have hclose : (b start).step t.line (.closing name) = .goOn d notices := by
      rw [Stage.step_of_isTag hstop.isTag, (hawaits start).react_eq]
      dsimp only
      rw [if_pos rfl, hdone]
    exact ⟨t, hstart.trans (Leads.of_step hclosing hclose), ht⟩
  · obtain ⟨v, t, hcontents, hclosing, ht⟩ := EventStream.next_text hcontent hu hstop
    have htext : (b start).step v.line (.text content) = .goOn (c start content) [] := by
      rw [Stage.step, if_neg (by simp [hkeeps start]), (hawaits start).react_eq]
    have hclose : (c start content).step t.line (.closing name) = .goOn d notices := by
      rw [Stage.step_of_isTag hstop.isTag, (hawaits start).react_behind]
      dsimp only
      rw [if_pos rfl, hdone]
    exact ⟨t, hstart.trans ((Leads.of_step hcontents htext).trans (Leads.of_step hclosing hclose)), ht⟩

/-- A tag that is not to be there ends the reading. -/
theorem readEvents_failed {e : Nat → MarcError} (hs : s.Before l (m :: ms) names)
    (hm : m.Reads names event names') (ha : a.keepsText = false)
    (hreact : ∀ line, a.react line event = .failed (e line)) :
    ∃ line, (readEvents s a).result = .error (e line) := by
  obtain ⟨u, t, hgap, hnext, _⟩ := leads_to_tag hs hm ha
  refine ⟨t.line, ?_⟩
  rw [hgap.result_eq, readEvents_of_next hnext, Stage.step_of_isTag hm.isTag, hreact]

/-! ## Whole records -/

/-- The end tag of a record that is not alone completes it. -/
theorem readEvents_record {r : Record} (hs : s.Before l (m :: ms) names)
    (hm : m.Reads names event names') (ha : a.keepsText = false)
    (hreact : ∀ line, a.react line event = .record r false) :
    (readEvents s a).result = .ok (some (r, false)) ∧
      (readEvents s a).state.Before (l.write m).2 ms names' := by
  obtain ⟨u, t, hgap, hnext, ht⟩ := leads_to_tag hs hm ha
  have hread : readEvents u a = ⟨.ok (some (r, false)), t, []⟩ := by
    rw [readEvents_of_next hnext, Stage.step_of_isTag hm.isTag, hreact]
  rw [hgap.result_eq, hgap.state_eq, hread]
  exact ⟨rfl, ht⟩

theorem readEvents_closed (hs : s.Before l (m :: ms) names) (hm : m.Reads names event names')
    (ha : a.keepsText = false) (hreact : ∀ line, a.react line event = .closed) :
    (readEvents s a).result = .ok none := by
  obtain ⟨u, t, hgap, hnext, _⟩ := leads_to_tag hs hm ha
  rw [hgap.result_eq, readEvents_of_next hnext, Stage.step_of_isTag hm.isTag, hreact]

end

end Marc21.Slim
