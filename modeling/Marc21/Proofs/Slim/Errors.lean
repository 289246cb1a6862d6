import Marc21.Proofs.Format.Reader
import Marc21.Proofs.Slim.Steps

/-!
Errors of a reader of MARC-XML. Neither the events of a document nor the grammar fails in any other way than with a
fault on some line of the document, and a call of `read` never takes the document away. So this holds of all
reading to the end (`malformed_of_readAll`).
-/

namespace Marc21

open Xml (Event EventStream Scanner)

/-- What is wrong with a document on one of its lines. -/
def MarcError.Malformed (e : MarcError) : Prop := ∃ line fault, e = .malformedXml line fault

namespace Xml.EventStream

variable {s t : EventStream} {e : MarcError}

theorem gather_malformed {s : Scanner} {text : Option (List String)} (h : gather s text = (.error e, t)) :
    e.Malformed := by
  fun_induction gather s text with
  | case1 s text fault u =>
    cases h
    exact ⟨_, _, rfl⟩
  | case2 s text token u hn fault =>
    cases h
    exact ⟨_, _, rfl⟩
  | case3 s text token u hn he ih => exact ih h
  | case4 s text token u hn content he ih => exact ih h
  | case5 => cases h
  | case6 => cases h

theorem next_malformed (h : s.next = (.error e, t)) : e.Malformed := by
  unfold next at h
  split at h
  · cases h
  · exact gather_malformed h

end Xml.EventStream

namespace Slim

/-! ## The grammar -/

/-- A stage fails only for what is in the document. -/
theorem Stage.step_malformed {stage : Stage} {line : Nat} {event : Event} {e : MarcError}
    (h : stage.step line event = .failed e) : e.Malformed := by
  unfold step at h
  split at h
  · cases h
  · have hmakes := react_makes stage line event
    rw [h] at hmakes
    cases hmakes with
    | failed => exact ⟨_, _, rfl⟩

theorem readEvents_malformed {s : EventStream} {stage : Stage} {e : MarcError}
    (h : (readEvents s stage).result = .error e) : e.Malformed := by
  fun_induction readEvents s stage with
  | case1 s stage found t hn =>
    cases h
    exact EventStream.next_malformed hn
  | case2 s stage event t hn found hs =>
    cases h
    exact Stage.step_malformed hs
  | case3 => cases h
  | case4 => cases h
  | case5 s stage event t hn next notices hs later ih => exact ih h

/-! ## The reader -/

namespace Reader

variable {r : Reader}

theorem readFrom_spec (r : Reader) (stream : EventStream) (stage : Stage) :
    (r.readFrom stream stage).state.input = r.input ∧ (r.readFrom stream stage).state.stream.isSome ∧
      ∀ e, (r.readFrom stream stage).result = .error e → e.Malformed := by
  unfold readFrom
  split
  · next e t notices hread =>
    refine ⟨rfl, rfl, ?_⟩
    rintro _ ⟨⟩
    exact readEvents_malformed (by rw [hread])
  · exact ⟨rfl, rfl, fun e h => nomatch h⟩
  · exact ⟨rfl, rfl, fun e h => nomatch h⟩

/-- A call neither takes the document away from a reader nor changes it, and fails for what is in it. -/
theorem read_spec (h : r.stream.isSome) : r.read.state.input = r.input ∧ r.read.state.stream.isSome ∧
    ∀ e, r.read.result = .error e → e.Malformed := by
  obtain ⟨stream, hstream⟩ := Option.isSome_iff_exists.1 h
  rw [read, hstream]
  dsimp only
  cases r.place with
  | start => exact readFrom_spec r stream .root
  | inCollection => exact readFrom_spec r stream .member
  | finished => exact ⟨rfl, h, fun e hnone => nomatch hnone⟩

end Reader

/-- Whatever is wrong when a document is read to its end, it is an error on one of its lines. -/
theorem malformed_of_readAll {r : Reader} (hr : r.stream.isSome) {e : MarcError}
    (h : (RecordReader.xml r).readAll.result = .error e) : e.Malformed := by
  generalize hn : r.measure = n
  induction n using Nat.strongRecOn generalizing r with
  | ind n ih =>
    obtain ⟨_, hstream, herror⟩ := Reader.read_spec hr
    cases hread : (RecordReader.xml r).read.result with
    | error found =>
      rw [RecordReader.readAll_of_error hread] at h
      cases h
      exact herror _ hread
    | ok found =>
      cases found with
      | none =>
        rw [RecordReader.readAll_of_none hread] at h
        cases h
      | some record =>
        have hless : r.read.state.measure < n := hn ▸ RecordReader.read_measure
          (show (RecordReader.xml r).read = ⟨.ok (some record), .xml r.read.state, r.read.notices⟩ by
            rw [← hread]; rfl)
        rw [RecordReader.readAll_of_record hread] at h
        change (RecordReader.xml r.read.state).readAll.result.map _ = _ at h
        cases hrest : (RecordReader.xml r.read.state).readAll.result with
        | error found =>
          rw [hrest] at h
          cases h
          exact ih _ hless hstream hrest rfl
        | ok rs =>
          rw [hrest] at h
          cases h

end Slim

end Marc21
