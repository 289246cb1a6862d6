import Marc21.Proofs.Format.Rewind

/-!
Iterating over the records of a document. Wherever a reader has come to, it gives finitely many records, after
which there may be one error, and then nothing, as long as it has its input (`Slim.Reader.ends`). A rewind that
fails takes the input away for good, and then every call fails (`iterate_ends`).
-/

namespace Marc21

/-! ## Items -/

namespace RecordReader

variable {r : RecordReader}

/-- An iteration over what is left comes to an end, and an error is the last item of it. Behind that end, every
call gives nothing. -/
def Ends (r : RecordReader) : Prop :=
  ∃ (records : List Record) (last : Option MarcError),
    (∀ n, (r.iterate n).1 = (records.map Except.ok ++ last.toList.map Except.error).take n) ∧
    ∀ k, records.length + last.toList.length ≤ k → (r.after k).read.result = .ok none

theorem iterate_of_none (h : r.read.result = .ok none) (n : Nat) : (r.iterate n).1 = [] := by
  cases n with
  | zero => rfl
  | succ n =>
    rw [iterate]
    split
    · rfl
    · next hr => simp [hr] at h
    · next hr => simp [hr] at h

theorem iterate_of_record {record : Record} (h : r.read.result = .ok (some record)) (n : Nat) :
    (r.iterate (n + 1)).1 = .ok record :: (r.read.state.iterate n).1 := by
  rw [iterate]
  split
  · next hr => simp [hr] at h
  · next hr =>
    rw [hr] at h ⊢
    cases h
    rfl
  · next hr => simp [hr] at h

theorem iterate_of_error {e : MarcError} (h : r.read.result = .error e) (n : Nat) :
    (r.iterate (n + 1)).1 = .error e :: (r.read.state.iterate n).1 := by
  rw [iterate]
  split
  · next hr => simp [hr] at h
  · next hr => simp [hr] at h
  · next hr =>
    rw [hr] at h ⊢
    cases h
    rfl

/-- At the end there are no items. -/
theorem ends_of_none (h : ∀ k, (r.after k).read.result = .ok none) : r.Ends := by
  refine ⟨[], none, fun n => ?_, fun k _ => h k⟩
  have hitems : (r.iterate n).1 = [] := iterate_of_none (h 0) n
  simp [hitems]

theorem ends_of_error {e : MarcError} (h : r.read.result = .error e)
    (later : ∀ k, (r.read.state.after k).read.result = .ok none) : r.Ends := by
  refine ⟨[], some e, fun n => ?_, fun k hk => ?_⟩
  · cases n with
    | zero => rfl
    | succ n =>
      have hitems : (r.read.state.iterate n).1 = [] := iterate_of_none (later 0) n
      rw [iterate_of_error h, hitems]
      simp
  · obtain ⟨k, rfl⟩ := Nat.exists_eq_add_of_le' hk
    exact later k

/-- One more record in front. -/
theorem ends_of_record {record : Record} (h : r.read.result = .ok (some record))
    (later : r.read.state.Ends) : r.Ends := by
  obtain ⟨records, last, hitems, hbehind⟩ := later
  refine ⟨record :: records, last, fun n => ?_, fun k hk => ?_⟩
  · cases n with
    | zero => rfl
    | succ n =>
      rw [iterate_of_record h, hitems]
      rfl
  · rw [List.length_cons, Nat.add_right_comm] at hk
    obtain ⟨k, rfl⟩ := Nat.exists_eq_add_of_le' hk
    exact hbehind (k + (records.length + last.toList.length)) (Nat.le_add_left _ _)

end RecordReader

namespace Slim.Reader

open RecordReader (Ends)

variable {r : Reader}

/-! ## With the input -/

theorem readFrom_ended {stream : Xml.EventStream} {stage : Stage}
    (h : ∀ record, (r.readFrom stream stage).result ≠ .ok (some record)) :
    (r.readFrom stream stage).state.place = .finished := by
  unfold readFrom at h ⊢
  split
  · rfl
  · rfl
  · next heq => exact absurd (by rw [heq]) (h _)

/-- A call that gives no record is the last one that looks at the document. -/
theorem read_ended (hr : r.stream.isSome) (h : ∀ record, r.read.result ≠ .ok (some record)) :
    r.read.state.place = .finished := by
  obtain ⟨stream, hstream⟩ := Option.isSome_iff_exists.1 hr
  rw [read, hstream] at h ⊢
  dsimp only at h ⊢
  cases hplace : r.place with
  | start =>
    rw [hplace] at h
    exact readFrom_ended h
  | inCollection =>
    rw [hplace] at h
    exact readFrom_ended h
  | finished => exact hplace

theorem read_finished (hr : r.stream.isSome) (hplace : r.place = .finished) :
    r.read = ⟨.ok none, r, []⟩ := by
  obtain ⟨stream, hstream⟩ := Option.isSome_iff_exists.1 hr
  rw [read, hstream, hplace]

theorem after_finished (hr : r.stream.isSome) (hplace : r.place = .finished) (k : Nat) :
    ((RecordReader.xml r).after k).read.result = .ok none := by
  have hread : (RecordReader.xml r).read = ⟨.ok none, .xml r, []⟩ := by
    rw [RecordReader.read, read_finished hr hplace]
    rfl
  induction k with
  | zero => rw [RecordReader.after, hread]
  | succ k ih =>
    rw [RecordReader.after, hread]
    exact ih

/-- A reader that has its input comes to the end. -/
theorem ends (hr : r.stream.isSome) : Ends (.xml r) := by
  generalize hn : r.measure = n
  induction n using Nat.strongRecOn generalizing r with
  | ind n ih =>
    obtain ⟨_, hafter, _⟩ := read_spec hr
    cases hread : r.read.result with
    | error e =>
      have hplace := read_ended hr (by simp [hread])
      exact RecordReader.ends_of_error hread (after_finished hafter hplace)
    | ok found =>
      cases found with
      | none =>
        have hplace := read_ended hr (by simp [hread])
        refine RecordReader.ends_of_none fun k => ?_
        cases k with
        | zero => exact hread
        | succ k => exact after_finished hafter hplace k
      | some record =>
        have hless : r.read.state.measure < n := hn ▸ read_measure (by rw [← hread])
        exact RecordReader.ends_of_record hread (ih _ hless hafter rfl)

/-! ## Without the input -/

/-- A reader that has lost its input gives the same error again and again. -/
theorem iterate_lost (hr : r.stream = none) (n : Nat) :
    ((RecordReader.xml r).iterate n).1 = List.replicate n (.error (.streamFailed .inputLost)) := by
  induction n generalizing r with
  | zero => rfl
  | succ n ih =>
    have hread : r.read = ⟨.error (.streamFailed .inputLost), { r with place := .finished }, []⟩ := by
      rw [read, hr]
    have hresult : (RecordReader.xml r).read.result = .error (.streamFailed .inputLost) := by
      rw [RecordReader.read, hread]
      rfl
    have hstate : (RecordReader.xml r).read.state = .xml { r with place := .finished } := by
      rw [RecordReader.read, hread]
      rfl
    rw [RecordReader.iterate_of_error hresult, hstate, ih (r := { r with place := .finished }) hr,
      List.replicate_succ]

theorem not_ends_lost (hr : r.stream = none) : ¬ Ends (.xml r) := by
  rintro ⟨records, last, hitems, _⟩
  have hlength := congrArg List.length (hitems (records.length + last.toList.length + 1))
  rw [iterate_lost hr, List.length_replicate, List.length_take, List.length_append, List.length_map,
    List.length_map] at hlength
  omega

/-! ## Any calls -/

/-- A reader after any calls, and whether a rewind failed among them. A rewind finds the stream as it is then:
its bytes, where they break off and whether going back fails may have changed. -/
inductive Reached : Bool → Reader → Prop where
  | new (input : Input) : Reached false (.ofInput input)
  | read {lost : Bool} {r : Reader} (h : Reached lost r) : Reached lost r.read.state
  | rewind {lost : Bool} {r : Reader} (h : Reached lost r) (found : Input)
      (hback : ({ r with input := found } : Reader).rewind.result = .ok ()) :
      Reached lost ({ r with input := found } : Reader).rewind.state
  | lose {lost : Bool} {r : Reader} (h : Reached lost r) (found : Input)
      (hback : ({ r with input := found } : Reader).rewind.result ≠ .ok ()) :
      Reached true ({ r with input := found } : Reader).rewind.state

theorem read_lost (hr : r.stream = none) : r.read.state.stream = none := by
  rw [read, hr]

theorem rewind_cases (r : Reader) :
    r.rewind.result = .ok () ∧ r.stream.isSome ∧ r.rewind.state.stream.isSome ∨
      r.rewind.result ≠ .ok () ∧ r.rewind.state.stream = none := by
  unfold rewind
  split
  · next _ heq => exact .inr ⟨by simp, heq⟩
  · exact .inr ⟨by simp, rfl⟩
  · next heq _ => exact .inl ⟨rfl, by rw [heq]; rfl, rfl⟩

/-- Nothing but a failed rewind takes the input away, and nothing gives it back. -/
theorem Reached.stream_eq_none_iff {lost : Bool} (h : Reached lost r) : r.stream = none ↔ lost = true := by
  induction h with
  | new input => simp [ofInput]
  | @read lost r _ ih =>
    rw [← ih]
    refine ⟨fun hnone => ?_, read_lost⟩
    by_contra hsome
    obtain ⟨_, hafter, _⟩ := read_spec (Option.isSome_iff_ne_none.2 hsome)
    simp [hnone] at hafter
  | @rewind lost r _ found hback ih =>
    rcases rewind_cases { r with input := found } with ⟨_, hbefore, hafter⟩ | ⟨hfailed, _⟩
    · rw [← ih]
      simp [Option.isSome_iff_ne_none.1 hbefore, Option.isSome_iff_ne_none.1 hafter]
    · exact absurd hback hfailed
  | @lose lost r _ found hback ih =>
    rcases rewind_cases { r with input := found } with ⟨hok, _⟩ | ⟨_, hnone⟩
    · exact absurd hok hback
    · simp [hnone]

/-! ## Main result -/

/-- **Iteration.** Whatever calls came before, and however the stream fails, an iteration over the records of a
document ends, an error is its last item, and after it every call gives nothing, unless a rewind has failed.
After that every call fails, and an iteration never ends. -/
theorem iterate_ends {lost : Bool} {r : Reader} (h : Reached lost r) :
    (Ends (.xml r) ↔ lost = false) ∧
      (lost = true → ∀ n, ((RecordReader.xml r).iterate n).1 =
        List.replicate n (.error (.streamFailed .inputLost))) := by
  have hlost := h.stream_eq_none_iff
  refine ⟨⟨fun hends => ?_, fun hkept => ends ?_⟩, fun h => iterate_lost (hlost.2 h)⟩
  · by_contra hne
    exact not_ends_lost (hlost.2 (by simpa using hne)) hends
  · rw [Option.isSome_iff_ne_none, ne_eq, hlost, hkept]
    simp

/-- A reader that has met an error, and one that has gone back since to find another document. -/
theorem iterate_ends_replaced :
    let r := (ofInput (.ofBytes (Utf8.encode "<collection>"))).read.state
    let s : Reader := { r with input := .ofBytes (Utf8.encode "<collection/>") }
    Ends (.xml r) ∧ s.rewind.result = .ok () ∧ Ends (.xml s.rewind.state) := by
  intro r s
  have hr : Reached false r := .read (.new _)
  have hback : s.rewind.result = .ok () := by
    rw [rewind_ok (x := s) (read_spec rfl).2.1 rfl]
  exact ⟨(iterate_ends hr).1.2 rfl, hback, (iterate_ends (hr.rewind _ hback)).1.2 rfl⟩

/-- A rewind that fails, and two calls behind it. -/
theorem read_again_lost :
    let input : Input :=
      { Input.ofBytes (Utf8.encode "<collection></collection>") with seekFailure := some (.reported "no seek") }
    let r := (ofInput input).rewind.state
    Reached true r ∧ r.read.result = .error (.streamFailed .inputLost) ∧
      r.read.state.read.result = .error (.streamFailed .inputLost) ∧ ¬ Ends (.xml r) := by
  intro input r
  have hr : Reached true r := .lose (.new input) input (fun hback => nomatch hback)
  exact ⟨hr, rfl, rfl, not_ends_lost rfl⟩

end Slim.Reader

end Marc21
