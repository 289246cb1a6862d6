import Marc21.Iso2709.Reader
import Marc21.Proofs.Stream.Source

/-!
One physical record off a stream that does not fail. What becomes of it is a function of the bytes that lie
ahead (`readPart_spec`): how many of them are taken, by how much the position moves, and whether there is a
record.
-/

namespace Marc21.Iso2709.Reader

/-- What becomes of a physical record: the result of reading it, how many bytes that takes, and by how much
it moves the position. -/
structure PartRead where
  result : Except MarcError (Option Record)
  taken : Nat
  moved : Nat

/-- The physical record at the front of some bytes. The position is for errors to name. -/
def partRead (position : Nat) (bs : Bytes) : PartRead :=
  let digits := bs.take 5
  if digits = [] then ⟨.ok none, 0, 0⟩
  else if digits.length < 5 then
    ⟨.error (.malformedLeader (.lengthUnread position)), digits.length, 0⟩
  else match recordLength? digits with
    | none =>
      ⟨.error (.malformedLeader (.lengthUnusable (Utf8.decodeLossy digits) position)), 5, 0⟩
    | some length =>
      if bs.length < length then
        ⟨.error (.malformedLeader (.recordTruncated position length)), bs.length, 0⟩
      else ⟨(parse (bs.take length)).map some, length, length⟩

theorem le_of_recordLength? {digits : Bytes} {length : Nat} (h : recordLength? digits = some length) :
    26 ≤ length :=
  of_decide_eq_true (Option.filter_eq_some_iff.1 h).2

theorem readPart_spec {r : Reader} (hs : r.source.Steady) :
    let p := partRead r.position r.source.upcoming
    r.readPart.result = p.result ∧ ∃ source,
      r.readPart.state = { r with source, position := r.position + p.moved } ∧ source.Steady ∧
      source.upcoming = r.source.upcoming.drop p.taken ∧ r.source.SameStream source := by
  have hstream := r.source.take_sameStream 5
  obtain ⟨first, hfirst, hfirststeady, hfirstup⟩ := Source.take_spec 5 hs
  rw [hfirst] at hstream
  generalize r.source.upcoming = bs at hfirst hfirstup ⊢
  unfold readPart partRead
  rw [hfirst]
  dsimp only
  split
  · next hnil =>
    have hbs : bs = [] := by simpa using hnil
    exact ⟨rfl, first, rfl, hfirststeady, by simp [hfirstup, hbs], hstream⟩
  · split
    · next hshort =>
      rw [List.length_take] at hshort
      have hlength : (bs.take 5).length = bs.length := by
        rw [List.length_take]
        omega
      refine ⟨rfl, first, rfl, hfirststeady, ?_, hstream⟩
      rw [hfirstup, hlength, List.drop_length, List.drop_of_length_le (by omega)]
    · next hlong =>
      rw [List.length_take] at hlong
      cases hrecord : recordLength? (bs.take 5) with
      | none => exact ⟨rfl, first, rfl, hfirststeady, hfirstup, hstream⟩
      | some length =>
        have hle := le_of_recordLength? hrecord
        have hstream' := first.take_sameStream (length - 5)
        obtain ⟨second, hsecond, hsecondsteady, hsecondup⟩ :=
          Source.take_spec (length - 5) hfirststeady
        rw [hsecond] at hstream'
        rw [hfirstup] at hsecond hsecondup
        rw [List.drop_drop, Nat.add_sub_cancel' (by omega)] at hsecondup
        dsimp only
        rw [hsecond]
        dsimp only
        have hiff : ((bs.drop 5).take (length - 5)).length < length - 5 ↔ bs.length < length := by
          rw [List.length_take, List.length_drop]
          omega
        have hwhole : bs.take 5 ++ (bs.drop 5).take (length - 5) = bs.take length := by
          rw [← List.take_add, Nat.add_sub_cancel' (by omega)]
        simp only [hiff, hwhole]
        split
        · next hlt =>
          refine ⟨rfl, second, rfl, hsecondsteady, ?_, hstream.trans hstream'⟩
          rw [hsecondup, List.drop_length, List.drop_of_length_le (by omega)]
        · exact ⟨rfl, second, rfl, hsecondsteady, hsecondup, hstream.trans hstream'⟩

/-- Nothing is found only where nothing is ahead. -/
theorem partRead_none {position : Nat} {bs : Bytes} (h : (partRead position bs).result = .ok none) :
    bs = [] := by
  unfold partRead at h
  dsimp only at h
  split at h
  · next hnil => simpa using hnil
  · split at h
    · cases h
    · split at h
      · cases h
      · split at h
        · cases h
        · simp only [Except.map] at h
          split at h <;> cases h

/-- A record that is read moves the position by the bytes it takes. -/
theorem partRead_some {position : Nat} {bs : Bytes} {next : Record}
    (h : (partRead position bs).result = .ok (some next)) :
    (partRead position bs).moved = (partRead position bs).taken := by
  unfold partRead at h ⊢
  dsimp only at h ⊢
  split at h
  · cases h
  · split at h
    · cases h
    · split at h
      · cases h
      · split at h
        · cases h
        · next hnil hshort _ length hrecord hlong =>
          simp only [if_neg hnil, if_neg hshort, if_neg hlong]

/-- What is ahead gets less with each physical record, whether it is usable or not. -/
theorem partRead_taken_pos {position : Nat} {bs : Bytes} (h : bs ≠ []) :
    0 < (partRead position bs).taken := by
  have hne : bs.take 5 ≠ [] := by simpa using h
  unfold partRead
  dsimp only
  rw [if_neg hne]
  split
  · exact List.length_pos_iff.2 hne
  · split
    · exact Nat.succ_pos 4
    · next length hrecord =>
      split
      · exact List.length_pos_iff.2 h
      · exact Nat.lt_of_lt_of_le (Nat.succ_pos 25) (le_of_recordLength? hrecord)

@[simp] theorem partRead_nil (position : Nat) : partRead position [] = ⟨.ok none, 0, 0⟩ := rfl

end Marc21.Iso2709.Reader
