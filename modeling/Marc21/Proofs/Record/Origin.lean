import Marc21.Iso2709.Reader
import Marc21.Slim.Reader
import Marc21.Proofs.Leader
import Marc21.Proofs.Record.Change
import Marc21.Proofs.Slim.Steps

/-!
Where records come from. Every record that is made from nothing, built, parsed or read is well-formed, and
so is what any run of changes makes of it. Of a binary reader this needs an invariant, since it holds back
a record and merges what follows into it. What it gives has a leader that takes its 24 bytes as well.
-/

namespace Marc21

open Record (WellFormed)

/-- What is known of a record that was parsed or read. -/
structure Record.Received (r : Record) : Prop where
  wellFormed : r.WellFormed
  fits : r.leader.Fits

/-! ## Binary records -/

namespace Iso2709

theorem ofBytes_of_parseLeader {bs : Bytes} {l : Leader} (h : parseLeader bs = .ok l) :
    Leader.ofBytes bs = .ok l := by
  unfold parseLeader at h
  cases hleader : Leader.ofBytes bs with
  | error fault =>
    rw [hleader] at h
    cases h
  | ok m =>
    simp only [hleader, bind, Except.bind] at h
    split at h
    · cases h
    · split at h
      · cases h
      · exact congrArg Except.ok (Except.ok.inj h)

theorem parse_received {bs : Bytes} {r : Record} (h : parse bs = .ok r) : r.Received := by
  unfold parse at h
  split at h
  · cases h
  · next l hleader =>
    split at h
    · cases h
    · cases h
      exact ⟨Record.wellFormed_sorted_ofParts _ _, Leader.fits_of_ofBytes (ofBytes_of_parseLeader hleader)⟩

/-- The record held back was parsed and perhaps merged with others. -/
def Grouping.Sound (g : Grouping) : Prop := ∀ held ∈ g.held, held.2.Received

theorem Grouping.sound_empty : Grouping.empty.Sound := by
  simp [Sound, empty]

theorem Grouping.push_sound {g : Grouping} {next : Record} (h : g.Sound) (offset : Nat)
    (hnext : next.Received) :
    (g.push offset next).2.Sound ∧ ∀ record ∈ (g.push offset next).1, record.Received := by
  have hsingle : Grouping.Sound ⟨some (offset, next)⟩ := by
    rintro held ⟨⟩
    exact hnext
  unfold Grouping.push
  split
  · exact ⟨hsingle, by simp⟩
  · next start r hheld =>
    have hr : r.Received := h (start, r) hheld
    split
    · refine ⟨?_, by simp⟩
      rintro held ⟨⟩
      exact ⟨hr.wellFormed.merge next, hr.fits⟩
    · refine ⟨hsingle, ?_⟩
      rintro record ⟨⟩
      exact hr

namespace Reader

/-- A reader on which any of its operations may have been called, in any order and with any outcome.
Going back to the start is going to the offset 0. -/
inductive Reachable : Reader → Prop where
  | ofSource (source : Source) : Reachable (ofSource source)
  | read {r : Reader} (h : Reachable r) : Reachable r.read.state
  | seek {r : Reader} (h : Reachable r) (offset : Nat) : Reachable (r.seek offset).state
  | withContent {r : Reader} (h : Reachable r) (content : Array UInt8) :
      Reachable (r.withContent content)

/-- A physical record that was read was parsed. -/
theorem parse_of_readPart {r s : Reader} {next : Record} {notices : List Notice}
    (h : r.readPart = ⟨.ok (some next), s, notices⟩) : ∃ bs, parse bs = .ok next := by
  unfold readPart at h
  split at h
  · cases h
  · dsimp only at h
    split at h
    · cases h
    · split at h
      · cases h
      · split at h
        · cases h
        · split at h
          · cases h
          · split at h
            · cases h
            · obtain ⟨hparse, _, _⟩ := Outcome.mk.inj h
              simp only [Except.map] at hparse
              split at hparse
              · cases hparse
              · next hbs =>
                cases hparse
                exact ⟨_, hbs⟩

theorem read_sound {r : Reader} (h : r.grouping.Sound) :
    r.read.state.grouping.Sound ∧
      ∀ record, r.read.result = .ok (some record) → record.Received := by
  fun_induction read r with
  | case1 r e s notices hp =>
    have hg : s.grouping = r.grouping := by
      rw [← readPart_grouping r, hp]
    refine ⟨?_, by simp⟩
    dsimp only
    rw [hg]
    exact h
  | case2 r s notices hp record grouping hf =>
    have hg : s.grouping = r.grouping := by
      rw [← readPart_grouping r, hp]
    obtain ⟨hrecord, rfl⟩ := Prod.mk.inj hf
    refine ⟨Grouping.sound_empty, ?_⟩
    rintro last ⟨⟩
    obtain ⟨held, hheld, rfl⟩ := Option.map_eq_some_iff.1 hrecord
    rw [hg] at hheld
    exact h held hheld
  | case3 r s notices hp grouping hf =>
    obtain ⟨_, rfl⟩ := Prod.mk.inj hf
    exact ⟨Grouping.sound_empty, by simp⟩
  | case4 r next s _ hp _ record grouping hf =>
    have hg : s.grouping = r.grouping := by
      rw [← readPart_grouping r, hp]
    obtain ⟨bs, hbs⟩ := parse_of_readPart hp
    have hpush := Grouping.push_sound h r.position (parse_received hbs)
    rw [← hg, hf] at hpush
    refine ⟨hpush.1, ?_⟩
    rintro record' ⟨⟩
    exact hpush.2 record rfl
  | case5 r next s _ hp _ grouping hf later ih =>
    have hg : s.grouping = r.grouping := by
      rw [← readPart_grouping r, hp]
    obtain ⟨bs, hbs⟩ := parse_of_readPart hp
    have hpush := Grouping.push_sound h r.position (parse_received hbs)
    rw [← hg, hf] at hpush
    exact ih hpush.1

theorem Reachable.sound {r : Reader} (h : Reachable r) : r.grouping.Sound := by
  induction h with
  | ofSource source => exact Grouping.sound_empty
  | read h ih => exact (read_sound ih).1
  | @seek r h offset ih =>
    unfold Reader.seek
    split
    · exact ih
    · exact Grouping.sound_empty
  | withContent h content ih => exact ih

end Reader

end Iso2709

/-! ## MARC-XML -/

namespace Slim

/-- A record that waits for the end of the document is well-formed. -/
def Stage.Sound : Stage → Prop
  | .trailer r => r.WellFormed
  | _ => True

def Verdict.Sound : Verdict → Prop
  | .goOn stage _ => stage.Sound
  | .record r _ => r.WellFormed
  | .closed | .failed _ => True

namespace Stage

/-- Only the end of a record makes a record, and only the end of the document lets go of one. -/
theorem react_sound {stage : Stage} (h : stage.Sound) (line : Nat) (event : Xml.Event) :
    (stage.react line event).Sound := by
  have hmakes := react_makes stage line event
  generalize stage.react line event = verdict at hmakes ⊢
  cases hmakes with
  | closeRecord => exact Record.wellFormed_sorted_ofParts _ _
  | closeLone => exact Record.wellFormed_sorted_ofParts _ _
  | endOfDocument => exact h
  | _ => trivial

theorem step_sound {stage : Stage} (h : stage.Sound) (line : Nat) (event : Xml.Event) :
    (stage.step line event).Sound := by
  unfold step
  split
  · exact h
  · exact react_sound h line event

end Stage

theorem readEvents_wellFormed {stream rest : Xml.EventStream} {stage : Stage} {r : Record}
    {lone : Bool} {notices : List Notice} (hstage : stage.Sound)
    (h : readEvents stream stage = ⟨.ok (some (r, lone)), rest, notices⟩) : r.WellFormed := by
  fun_induction readEvents stream stage generalizing notices with
  | case1 => cases h
  | case2 => cases h
  | case3 => cases h
  | case4 =>
    rename_i stream stage event t hn r' lone' hs
    have hsound := Stage.step_sound hstage t.line event
    rw [hs] at hsound
    cases h
    exact hsound
  | case5 =>
    rename_i stream stage event t hn next more hs later ih
    obtain ⟨h1, h2, _⟩ := Outcome.mk.inj h
    have hsound := Stage.step_sound hstage t.line event
    rw [hs] at hsound
    have hlater : later = ⟨.ok (some (r, lone)), rest, later.notices⟩ := by
      rw [← h1, ← h2]
    exact ih hsound hlater

theorem Reader.readFrom_wellFormed {r : Reader} {stream : Xml.EventStream} {stage : Stage}
    {record : Record} (hstage : stage.Sound)
    (h : (r.readFrom stream stage).result = .ok (some record)) : record.WellFormed := by
  unfold readFrom at h
  split at h
  · cases h
  · cases h
  · next hread =>
    cases h
    exact readEvents_wellFormed hstage hread

/-- No record is held between two reads, so it does not matter what came before. -/
theorem Reader.read_wellFormed {r : Reader} {record : Record}
    (h : r.read.result = .ok (some record)) : record.WellFormed := by
  unfold read at h
  split at h
  · cases h
  · split at h
    · exact readFrom_wellFormed (show Stage.Sound .root from trivial) h
    · exact readFrom_wellFormed (show Stage.Sound .member from trivial) h
    · cases h

end Slim

/-! ## Main result -/

/-- How a caller comes by a record. -/
inductive Origin : Record → Prop where
  | fresh (type : MaterialType) (level : BibliographicLevel) (controlNumber : Option String) :
      Origin (Record.fresh type level controlNumber)
  | build (type : MaterialType) (level : BibliographicLevel) (fields : List Field) :
      Origin (Record.build type level fields)
  | parse {bs : Bytes} {r : Record} (h : Iso2709.parse bs = .ok r) : Origin r
  | readBinary {reader : Iso2709.Reader} {r : Record} (hreader : reader.Reachable)
      (h : reader.read.result = .ok (some r)) : Origin r
  | readXml {reader : Slim.Reader} {r : Record} (h : reader.read.result = .ok (some r)) : Origin r

theorem Origin.wellFormed {r : Record} (h : Origin r) : r.WellFormed := by
  cases h with
  | fresh type level controlNumber => exact Record.wellFormed_fresh type level controlNumber
  | build type level fields => exact Record.wellFormed_build type level fields
  | parse h => exact (Iso2709.parse_received h).wellFormed
  | readBinary hreader h => exact ((Iso2709.Reader.read_sound hreader.sound).2 r h).wellFormed
  | readXml h => exact Slim.Reader.read_wellFormed h

/-- **The representation invariant.** Wherever a record comes from and whatever changes are made to it, it
stays in record order, its control number can be found if it has one, its size is that of its fields, and
no change takes more off the size than there is. -/
theorem run_of_origin {r : Record} (h : Origin r) (cs : List Change) :
    let s := Change.run cs r
    Change.runChecked cs r = some s ∧
      Ordered s.fields ∧
      (s.controlNumber?.isSome ↔ ∃ f ∈ s.fields, f.tag = Tag.controlNumber) ∧
      s.size = 26 + (s.fields.map fun f => 12 + f.contents.utf8ByteSize + 1).sum := by
  have hrun := Change.run_wellFormed cs h.wellFormed
  exact ⟨Change.runChecked_eq cs h.wellFormed, hrun.ordered, controlNumber?_isSome_iff hrun.ordered,
    hrun.size_eq.trans (exactSize_eq_sum _)⟩

/-- A built record to which one field comes and from which two go, one of them twice. -/
theorem run_of_origin_build :
    let r := Record.build .languageMaterial .monographOrItem
      [⟨Tag.titleStatement, "10\x1FaA"⟩, ⟨Tag.controlNumber, "1"⟩]
    let cs : List Change := [.insert ⟨Tag.localBlock, "  \x1F0245"⟩, .deleteFields [1, 1, 7],
      .deleteLocalBlocks [1], .retag Tag.controlNumber Tag.titleStatement]
    Origin r ∧ Change.runChecked cs r = some (Change.run cs r) ∧
      Ordered (Change.run cs r).fields := by
  have horigin : Origin (Record.build .languageMaterial .monographOrItem
      [⟨Tag.titleStatement, "10\x1FaA"⟩, ⟨Tag.controlNumber, "1"⟩]) := .build _ _ _
  have hrun := run_of_origin horigin [.insert ⟨Tag.localBlock, "  \x1F0245"⟩, .deleteFields [1, 1, 7],
    .deleteLocalBlocks [1], .retag Tag.controlNumber Tag.titleStatement]
  exact ⟨horigin, hrun.1, hrun.2.1⟩

end Marc21
