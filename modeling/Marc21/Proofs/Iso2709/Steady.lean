import Marc21.Proofs.Iso2709.Reading

/-!
A reader of a stream that does not fail. One call comes down to what becomes of the next physical record, and so
two readers with the same bytes ahead of them, the same position and the same record held back go on alike
(`Alike.read`), however their streams deliver the bytes.
-/

namespace Marc21.Iso2709.Reader

/-! ## One call -/

section

variable {r : Reader}

/-- An error leaves alone what is held back. -/
theorem read_of_error {e : MarcError} (h : r.readPart.result = .error e) :
    r.read.result = .error e ∧ r.read.state = r.readPart.state := by
  have hp : r.readPart = ⟨.error e, r.readPart.state, r.readPart.notices⟩ := by rw [← h]
  rw [read, hp]
  exact ⟨rfl, rfl⟩

/-- At the end comes what is held back. -/
theorem read_of_none (h : r.readPart.result = .ok none) :
    r.read.result = .ok r.held? ∧ ∃ recordsRead,
      r.read.state = { r.readPart.state with grouping := .empty, recordsRead } := by
  have hp : r.readPart = ⟨.ok none, r.readPart.state, r.readPart.notices⟩ := by rw [← h]
  have hgrouping := readPart_grouping r
  cases hheld : r.grouping.held with
  | none =>
    rw [read_end_none hp (by rw [hgrouping, hheld]), held?, hheld]
    exact ⟨rfl, _, rfl⟩
  | some held =>
    rw [read_end_held hp (by rw [hgrouping, hheld]), held?, hheld]
    exact ⟨rfl, _, rfl⟩

/-- Less is left in the stream after a physical record. -/
theorem readPart_less {next : Record} (h : r.readPart.result = .ok (some next)) :
    r.readPart.state.source.remaining < r.source.remaining := by
  have hp : r.readPart = ⟨.ok (some next), r.readPart.state, r.readPart.notices⟩ := by rw [← h]
  exact readPart_remaining hp

/-- A physical record that completes a logical one. -/
theorem read_of_push_some {next record : Record} {g : Grouping}
    (h : r.readPart.result = .ok (some next))
    (hpush : r.grouping.push r.position next = (some record, g)) :
    r.read.result = .ok (some record) ∧ ∃ recordsRead,
      r.read.state = { r.readPart.state with grouping := g, recordsRead } := by
  have hp : r.readPart = ⟨.ok (some next), r.readPart.state, r.readPart.notices⟩ := by rw [← h]
  rw [read_push_some hp (by rw [readPart_grouping r, hpush])]
  exact ⟨rfl, _, rfl⟩

/-- A physical record after which reading goes on. -/
theorem read_of_push_none {next : Record} {g : Grouping} (h : r.readPart.result = .ok (some next))
    (hpush : r.grouping.push r.position next = (none, g)) :
    let later : Reader := { r.readPart.state with grouping := g }
    r.read.result = later.read.result ∧ r.read.state = later.read.state := by
  have hp : r.readPart = ⟨.ok (some next), r.readPart.state, r.readPart.notices⟩ := by rw [← h]
  rw [read_push_none hp (by rw [readPart_grouping r, hpush])]
  exact ⟨rfl, rfl⟩

end

/-! ## Readers that cannot be told apart -/

/-- Two readers of streams that do not fail, at the same point and with the same record held back. -/
structure Alike (r s : Reader) : Prop where
  steady_left : r.source.Steady
  steady_right : s.source.Steady
  upcoming_eq : r.source.upcoming = s.source.upcoming
  position_eq : r.position = s.position
  grouping_eq : r.grouping = s.grouping

namespace Alike

variable {r s : Reader}

theorem tell_eq (h : Alike r s) : r.tell = s.tell := by
  rw [tell, tell, h.grouping_eq, h.position_eq]

theorem withGrouping (h : Alike r s) (g : Grouping) (m n : Nat) :
    Alike { r with grouping := g, recordsRead := m } { s with grouping := g, recordsRead := n } :=
  ⟨h.steady_left, h.steady_right, h.upcoming_eq, h.position_eq, rfl⟩

theorem readPart (h : Alike r s) :
    r.readPart.result = s.readPart.result ∧ Alike r.readPart.state s.readPart.state := by
  obtain ⟨hresult, source, hstate, hsteady, hup, _⟩ := readPart_spec h.steady_left
  obtain ⟨hresult', source', hstate', hsteady', hup', _⟩ := readPart_spec h.steady_right
  rw [← h.upcoming_eq, ← h.position_eq] at hresult' hstate' hup'
  refine ⟨hresult.trans hresult'.symm, ?_⟩
  rw [hstate, hstate']
  exact ⟨hsteady, hsteady', hup.trans hup'.symm, rfl, h.grouping_eq⟩

/-- One call gives the same of both. -/
theorem read (h : Alike r s) : r.read.result = s.read.result ∧ Alike r.read.state s.read.state := by
  generalize hn : r.source.remaining = n
  induction n using Nat.strongRecOn generalizing r s with
  | ind n ih =>
    obtain ⟨hpart, hafter⟩ := h.readPart
    cases hr : r.readPart.result with
    | error e =>
      obtain ⟨hresult, hstate⟩ := read_of_error hr
      obtain ⟨hresult', hstate'⟩ := read_of_error (hpart ▸ hr)
      rw [hresult, hresult', hstate, hstate']
      exact ⟨rfl, hafter⟩
    | ok found =>
      cases found with
      | none =>
        obtain ⟨hresult, m, hstate⟩ := read_of_none hr
        obtain ⟨hresult', m', hstate'⟩ := read_of_none (hpart ▸ hr)
        rw [hresult, hresult', hstate, hstate', held?, held?, h.grouping_eq]
        exact ⟨rfl, hafter.withGrouping _ _ _⟩
      | some next =>
        cases hpush : r.grouping.push r.position next with
        | mk out g =>
          have hpush' := hpush
          rw [h.grouping_eq, h.position_eq] at hpush'
          cases out with
          | some record =>
            obtain ⟨hresult, m, hstate⟩ := read_of_push_some hr hpush
            obtain ⟨hresult', m', hstate'⟩ := read_of_push_some (hpart ▸ hr) hpush'
            rw [hresult, hresult', hstate, hstate']
            exact ⟨rfl, hafter.withGrouping _ _ _⟩
          | none =>
            obtain ⟨hresult, hstate⟩ := read_of_push_none hr hpush
            obtain ⟨hresult', hstate'⟩ := read_of_push_none (hpart ▸ hr) hpush'
            rw [hresult, hresult', hstate, hstate']
            exact ih _ (hn ▸ readPart_less hr) (hafter.withGrouping g _ _) rfl

end Alike

end Marc21.Iso2709.Reader
