import Marc21.Stream.Source
import Marc21.Iso2709.Physical
import Marc21.Iso2709.Grouping

/-!
Reading logical records from a stream of physical ones. The reader runs one physical record ahead of
what it gives out, so its place is that of the record it holds back, if there is one.
-/

namespace Marc21.Iso2709

/-- `position` is the offset behind the last physical record that was read as a whole. -/
structure Reader where
  source : Source
  position : Nat
  grouping : Grouping
  recordsRead : Nat

namespace Reader

def ofSource (source : Source) : Reader := ⟨source, 0, .empty, 0⟩

/-- The length that opens a physical record. It has to leave room for the two terminators. -/
def recordLength? (digits : Bytes) : Option Nat := (Decimal.value? digits).filter (26 ≤ ·)

/-- Reads one physical record, or nothing at the end of the stream. -/
def readPart (r : Reader) : Outcome Reader (Option Record) :=
  match r.source.take 5 with
  | (.error failure, source) => ⟨.error (.streamFailed failure), { r with source }, []⟩
  | (.ok digits, source) =>
    let r := { r with source }
    if digits = [] then ⟨.ok none, r, []⟩
    else if digits.length < 5 then ⟨.error (.malformedLeader (.lengthUnread r.position)), r, []⟩
    else match recordLength? digits with
      | none =>
        let fault := .lengthUnusable (Utf8.decodeLossy digits) r.position
        ⟨.error (.malformedLeader fault), r, []⟩
      | some length =>
        match r.source.take (length - 5) with
        | (.error failure, source) => ⟨.error (.streamFailed failure), { r with source }, []⟩
        | (.ok rest, source) =>
          let r := { r with source }
          if rest.length < length - 5 then
            ⟨.error (.malformedLeader (.recordTruncated r.position length)), r, []⟩
          else
            let bs := digits ++ rest
            ⟨(parse bs).map some, { r with position := r.position + length }, parseNotices bs⟩

theorem readPart_remaining {r s : Reader} {next : Record} {notices : List Notice}
    (h : r.readPart = ⟨.ok (some next), s, notices⟩) : s.source.remaining < r.source.remaining := by
  unfold readPart at h
  split at h
  · simp at h
  · next digits source hs =>
    have htake := Source.take_remaining hs
    dsimp only at h
    split at h
    · simp at h
    · split at h
      · simp at h
      · next hlen =>
        split at h
        · simp at h
        · split at h
          · simp at h
          · next rest source' hs' =>
            have htake' := Source.take_remaining hs'
            split at h
            · simp at h
            · obtain ⟨_, hstate, _⟩ := Outcome.mk.inj h
              subst hstate
              dsimp only
              omega

/-- Reads the next logical record, or nothing at the end of the stream. -/
def read (r : Reader) : Outcome Reader (Option Record) :=
  match _h : r.readPart with
  | ⟨.error e, s, notices⟩ => ⟨.error e, s, notices⟩
  | ⟨.ok none, s, notices⟩ =>
    match s.grouping.finish with
    | (some record, grouping) =>
      ⟨.ok (some record), { s with grouping, recordsRead := s.recordsRead + 1 }, notices⟩
    | (none, grouping) => ⟨.ok none, { s with grouping }, notices⟩
  | ⟨.ok (some next), s, notices⟩ =>
    let notices := notices ++ s.grouping.pushNotices next
    match s.grouping.push r.position next with
    | (some record, grouping) =>
      ⟨.ok (some record), { s with grouping, recordsRead := s.recordsRead + 1 }, notices⟩
    | (none, grouping) =>
      let later := read { s with grouping }
      ⟨later.result, later.state, notices ++ later.notices⟩
termination_by r.source.remaining
decreasing_by exact readPart_remaining _h

/-- A bound on the records that are left. -/
def measure (r : Reader) : Nat :=
  2 * r.source.remaining + if r.grouping.held.isSome then 1 else 0

theorem readPart_grouping (r : Reader) : r.readPart.state.grouping = r.grouping := by
  unfold readPart
  split
  · rfl
  · dsimp only
    split
    · rfl
    · split
      · rfl
      · split
        · rfl
        · split
          · rfl
          · split <;> rfl

theorem readPart_none {r s : Reader} {notices : List Notice}
    (h : r.readPart = ⟨.ok none, s, notices⟩) : s.source.remaining ≤ r.source.remaining := by
  unfold readPart at h
  split at h
  · cases h
  · next digits source hs =>
    have htake := Source.take_remaining hs
    dsimp only at h
    split at h
    · cases h
      dsimp only
      omega
    · split at h
      · cases h
      · split at h
        · cases h
        · split at h
          · cases h
          · split at h
            · cases h
            · obtain ⟨hp, _, _⟩ := Outcome.mk.inj h
              simp only [Except.map] at hp
              split at hp <;> cases hp

theorem read_measure {r s : Reader} {record : Record} {notices : List Notice}
    (h : r.read = ⟨.ok (some record), s, notices⟩) : s.measure < r.measure := by
  fun_induction read r generalizing s notices with
  | case1 => cases h
  | case2 r t _ hp record' grouping hf =>
    cases h
    have hle := readPart_none hp
    have hg : t.grouping = r.grouping := by
      rw [← readPart_grouping r, hp]
    have hsome : r.grouping.held.map Prod.snd = some record := hg ▸ (Prod.mk.inj hf).1
    have hempty : grouping = Grouping.empty := (Prod.mk.inj hf).2.symm
    have : r.grouping.held.isSome = true := by
      rw [← Option.isSome_map , hsome]
      rfl
    simp only [measure, this, hempty, Grouping.empty, Option.isSome_none, if_true]
    simp only [Bool.false_eq_true, if_false]
    omega
  | case3 => cases h
  | case4 =>
    rename_i r next t _ hp _ _ grouping hf
    cases h
    have hlt := readPart_remaining hp
    have : grouping.held.isSome = true := by
      unfold Grouping.push at hf
      split at hf
      · cases hf
      · split at hf <;> cases hf
        rfl
    simp only [measure, this, if_true]
    have hg : t.grouping = r.grouping := by
      rw [← readPart_grouping r, hp]
    unfold Grouping.push at hf
    split at hf
    · cases hf
    · next hh =>
      rw [← hg, hh]
      simp only [Option.isSome_some, if_true]
      omega
  | case5 =>
    rename_i r next t _ hp _ grouping hf later ih
    have hlt := readPart_remaining hp
    obtain ⟨h1, h2, _⟩ := Outcome.mk.inj h
    have hlater : later = ⟨.ok (some record), s, later.notices⟩ := by
      rw [← h1, ← h2]
    have := ih hlater
    simp only [measure] at this ⊢
    split at this <;> split <;> split at this <;> omega

/-- The reader of a stream that has come to hold other bytes. -/
def withContent (r : Reader) (content : Array UInt8) : Reader :=
  { r with source := { r.source with content } }

/-- The offset of the record that the next `read` gives. -/
def tell (r : Reader) : Nat := r.grouping.heldOffset?.getD r.position

/-- Goes to an offset that `tell` gave, and forgets the record held back. -/
def seek (r : Reader) (offset : Nat) : Outcome Reader Unit :=
  match r.source.seek offset with
  | .error failure => ⟨.error (.streamFailed failure), r, []⟩
  | .ok source => ⟨.ok (), { r with source, position := offset, grouping := .empty }, []⟩

def rewind (r : Reader) : Outcome Reader Unit := r.seek 0

end Reader

end Marc21.Iso2709
