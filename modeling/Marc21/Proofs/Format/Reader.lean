import Marc21.Format.Reader

/-!
What reading to the end comes to. A walk keeps what each visit keeps (`walk_keeps`). `readAll` is a walk that
puts the record of the first call in front of what the reader gives after it (`readAll_of_record`), so it gives
what the calls of `read` give one by one (`readAll_of_gives`, `gives_of_readAll`).
-/

namespace Marc21.RecordReader

/-! ## Walks -/

section

variable {β ε : Type} {embed : MarcError → ε}
  {visit : β → RecordReader → Record → Except ε Unit × β × List Notice} {r : RecordReader} {value : β}

theorem walk_of_error {e : MarcError} (h : r.read.result = .error e) :
    (r.walk embed visit value).result = .error (embed e) ∧ (r.walk embed visit value).value = value := by
  rw [walk]
  split
  · next hr =>
    rw [hr] at h
    cases h
    exact ⟨rfl, rfl⟩
  · next hr => simp [hr] at h
  · next hr => simp [hr] at h

theorem walk_of_none (h : r.read.result = .ok none) :
    (r.walk embed visit value).result = .ok () ∧ (r.walk embed visit value).value = value := by
  rw [walk]
  split
  · next hr => simp [hr] at h
  · exact ⟨rfl, rfl⟩
  · next hr => simp [hr] at h

/-- A walk goes on with what the visit of the first record carries on. -/
theorem walk_of_record {record : Record} {next : β} {notices : List Notice}
    (h : r.read.result = .ok (some record)) (hvisit : visit value r record = (.ok (), next, notices)) :
    (r.walk embed visit value).result = (r.read.state.walk embed visit next).result ∧
      (r.walk embed visit value).value = (r.read.state.walk embed visit next).value := by
  rw [walk]
  split
  · next hr => simp [hr] at h
  · next hr => simp [hr] at h
  · next hr =>
    rw [hr] at h ⊢
    cases h
    rw [hvisit]
    exact ⟨rfl, rfl⟩

theorem walk_of_refused {record : Record} {e : ε} {next : β} {notices : List Notice}
    (h : r.read.result = .ok (some record)) (hvisit : visit value r record = (.error e, next, notices)) :
    (r.walk embed visit value).result = .error e ∧ (r.walk embed visit value).value = next := by
  rw [walk]
  split
  · next hr => simp [hr] at h
  · next hr => simp [hr] at h
  · next hr =>
    rw [hr] at h
    cases h
    rw [hvisit]
    exact ⟨rfl, rfl⟩

/-- What every visit keeps is true of what a walk comes to. -/
theorem walk_keeps {p : β → Prop} (hvisit : ∀ value r record, p value → p (visit value r record).2.1)
    (hvalue : p value) : p (r.walk embed visit value).value := by
  generalize hn : r.measure = n
  induction n using Nat.strongRecOn generalizing r value with
  | ind n ih =>
    cases hr : r.read.result with
    | error e =>
      rw [(walk_of_error hr).2]
      exact hvalue
    | ok found =>
      cases found with
      | none =>
        rw [(walk_of_none hr).2]
        exact hvalue
      | some record =>
        have hnext := hvisit value r record hvalue
        rcases hv : visit value r record with ⟨result, next, notices⟩
        rw [hv] at hnext
        cases result with
        | error e =>
          rw [(walk_of_refused hr hv).2]
          exact hnext
        | ok =>
          have hless : r.read.state.measure < n := hn ▸ read_measure
            (show r.read = ⟨.ok (some record), r.read.state, r.read.notices⟩ by rw [← hr])
          rw [(walk_of_record hr hv).2]
          exact ih _ hless hnext rfl

/-- So is what every call keeps true of the reader that a walk ends with. -/
theorem walk_keeps_reader {p : RecordReader → Prop} (hread : ∀ r, p r → p r.read.state) (hr : p r) :
    p (r.walk embed visit value).reader := by
  generalize hn : r.measure = n
  induction n using Nat.strongRecOn generalizing r value with
  | ind n ih =>
    have hnext := hread r hr
    rw [walk]
    split
    · next heq => simpa only [heq] using hnext
    · next heq => simpa only [heq] using hnext
    · next heq =>
      rw [heq] at hnext
      have hless := hn ▸ read_measure heq
      split
      · exact hnext
      · exact ih _ hless hnext rfl

end

/-! ## One call of many -/

section

variable {r : RecordReader}

/-- The walk of `readAll`, with records that came before. -/
private def readOnto (r : RecordReader) (done : List Record) : Except MarcError (List Record) :=
  let w := r.walk (id : MarcError → MarcError) (fun done _ record => (.ok (), record :: done, [])) done
  w.result.map fun _ => w.value.reverse

private theorem readOnto_of_error {e : MarcError} (h : r.read.result = .error e) (done : List Record) :
    readOnto r done = .error e := by
  rw [readOnto, (walk_of_error h).1]
  rfl

private theorem readOnto_of_none (h : r.read.result = .ok none) (done : List Record) :
    readOnto r done = .ok done.reverse := by
  rw [readOnto, (walk_of_none h).1, (walk_of_none h).2]
  rfl

private theorem readOnto_of_record {record : Record} (h : r.read.result = .ok (some record))
    (done : List Record) : readOnto r done = readOnto r.read.state (record :: done) := by
  rw [readOnto, (walk_of_record h rfl).1, (walk_of_record h rfl).2]
  rfl

private theorem readOnto_eq (r : RecordReader) (done : List Record) :
    readOnto r done = (readOnto r []).map (done.reverse ++ ·) := by
  generalize hn : r.measure = n
  induction n using Nat.strongRecOn generalizing r done with
  | ind n ih =>
    cases hr : r.read.result with
    | error e =>
      rw [readOnto_of_error hr, readOnto_of_error hr]
      rfl
    | ok found =>
      cases found with
      | none =>
        rw [readOnto_of_none hr, readOnto_of_none hr, Except.map, List.reverse_nil, List.append_nil]
      | some record =>
        have hless : r.read.state.measure < n := hn ▸ read_measure
          (show r.read = ⟨.ok (some record), r.read.state, r.read.notices⟩ by rw [← hr])
        rw [readOnto_of_record hr, readOnto_of_record hr, ih _ hless _ _ rfl, ih _ hless _ [record] rfl]
        cases readOnto r.read.state [] with
        | error e => rfl
        | ok out => simp [Except.map]

theorem readAll_of_error {e : MarcError} (h : r.read.result = .error e) : r.readAll.result = .error e :=
  readOnto_of_error h []

theorem readAll_of_none (h : r.read.result = .ok none) : r.readAll.result = .ok [] :=
  readOnto_of_none h []

theorem readAll_of_record {record : Record} (h : r.read.result = .ok (some record)) :
    r.readAll.result = r.read.state.readAll.result.map (record :: ·) :=
  (readOnto_of_record h []).trans (readOnto_eq r.read.state [record])

end

/-! ## All calls -/

/-- The calls of `read` give these records and then nothing. -/
inductive Gives : RecordReader → List Record → Prop where
  | done {r : RecordReader} (h : r.read.result = .ok none) : Gives r []
  | record {r : RecordReader} {record : Record} {out : List Record}
      (h : r.read.result = .ok (some record)) (rest : Gives r.read.state out) : Gives r (record :: out)

theorem readAll_of_gives {r : RecordReader} {out : List Record} (h : Gives r out) :
    r.readAll.result = .ok out := by
  induction h with
  | done h => exact readAll_of_none h
  | record h rest ih =>
    rw [readAll_of_record h, ih]
    rfl

/-- What was read to the end came by calls of `read`. -/
theorem gives_of_readAll {r : RecordReader} {out : List Record} (h : r.readAll.result = .ok out) :
    Gives r out := by
  generalize hn : r.measure = n
  induction n using Nat.strongRecOn generalizing r out with
  | ind n ih =>
    cases hread : r.read.result with
    | error e =>
      rw [readAll_of_error hread] at h
      cases h
    | ok found =>
      cases found with
      | none =>
        rw [readAll_of_none hread] at h
        cases h
        exact .done hread
      | some record =>
        have hless : r.read.state.measure < n := hn ▸ read_measure
          (show r.read = ⟨.ok (some record), r.read.state, r.read.notices⟩ by rw [← hread])
        rw [readAll_of_record hread] at h
        cases hrest : r.read.state.readAll.result with
        | error e =>
          rw [hrest] at h
          cases h
        | ok later =>
          rw [hrest] at h
          cases h
          exact .record hread (ih _ hless hrest rfl)

end Marc21.RecordReader
