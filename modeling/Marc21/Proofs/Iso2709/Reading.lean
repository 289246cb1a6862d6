import Marc21.Proofs.Format.Reader
import Marc21.Proofs.Iso2709.Physical
import Marc21.Proofs.Iso2709.PartRead

/-!
Reading a stream of whole physical records. The reader gives what grouping makes of them, one logical
record for each run with a common control number (`gives_grouped`), however the stream delivers its bytes.
-/

namespace Marc21.Iso2709

/-- Bytes that the reader takes off a stream as one physical record. -/
structure Whole (bs : Bytes) (r : Record) : Prop where
  length_eq : Reader.recordLength? (bs.take 5) = some bs.length
  parse_eq : parse bs = .ok r

/-- Bytes that hold these physical records, one after the other. -/
inductive Holds : Bytes → List Record → Prop where
  | nil : Holds [] []
  | cons {bs rest : Bytes} {r : Record} {rs : List Record} (whole : Whole bs r)
      (later : Holds rest rs) : Holds (bs ++ rest) (r :: rs)

theorem Holds.append {bs cs : Bytes} {rs ss : List Record} (h : Holds bs rs) (h' : Holds cs ss) :
    Holds (bs ++ cs) (rs ++ ss) := by
  induction h with
  | nil => exact h'
  | cons whole later ih =>
    rw [List.append_assoc, List.cons_append]
    exact .cons whole ih

/-- The logical records that physical ones make up, where one may be held back already. -/
def grouped : Option Record → List Record → List Record
  | held, [] => held.toList
  | none, next :: rest => grouped (some next) rest
  | some r, next :: rest =>
    if continues r next then grouped (some (r.merge next)) rest else r :: grouped (some next) rest

namespace Reader

/-- A reader on a steady stream of these physical records. -/
structure Before (r : Reader) (parts : List Record) : Prop where
  steady : r.source.Steady
  holds : Holds r.source.upcoming parts

/-- The record held back. -/
def held? (r : Reader) : Option Record := r.grouping.held.map Prod.snd

theorem readPart_end {r : Reader} (hs : r.source.Steady) (hup : r.source.upcoming = []) :
    ∃ source, r.readPart = ⟨.ok none, { r with source }, r.readPart.notices⟩ ∧ source.Steady ∧
      source.upcoming = [] := by
  obtain ⟨hresult, source, hstate, hsource, hrest, _⟩ := readPart_spec hs
  rw [hup, partRead_nil] at hresult hstate hrest
  dsimp only [Nat.add_zero] at hresult hstate
  exact ⟨source, by rw [← hresult, ← hstate], hsource, hrest⟩

theorem partRead_of_whole {bs : Bytes} {next : Record} (h : Whole bs next) (position : Nat) (rest : Bytes) :
    partRead position (bs ++ rest) = ⟨.ok (some next), bs.length, bs.length⟩ := by
  have hlength := le_of_recordLength? h.length_eq
  have hdigits : (bs ++ rest).take 5 = bs.take 5 := List.take_append_of_le_length (by omega)
  have htaken : (bs.take 5).length = 5 := by
    rw [List.length_take]
    omega
  have hne : bs.take 5 ≠ [] := List.ne_nil_of_length_pos (by omega)
  have hfits : ¬(bs ++ rest).length < bs.length := by
    rw [List.length_append]
    omega
  unfold partRead
  simp only [hdigits, if_neg hne, htaken, if_neg (Nat.lt_irrefl 5), h.length_eq, if_neg hfits,
    List.take_left, h.parse_eq]
  rfl

theorem readPart_of_whole {r : Reader} {bs rest : Bytes} {next : Record} (hs : r.source.Steady)
    (hup : r.source.upcoming = bs ++ rest) (h : Whole bs next) :
    ∃ source notices, r.readPart =
        ⟨.ok (some next), { r with source, position := r.position + bs.length }, notices⟩ ∧
      source.Steady ∧ source.upcoming = rest := by
  obtain ⟨hresult, source, hstate, hsource, hrest, _⟩ := readPart_spec hs
  rw [hup, partRead_of_whole h] at hresult hstate hrest
  dsimp only at hresult hstate hrest
  rw [List.drop_left] at hrest
  exact ⟨source, r.readPart.notices, by rw [← hresult, ← hstate], hsource, hrest⟩

/-! ## One call, by what the stream gives -/

section

variable {r s : Reader} {notices : List Notice}

theorem read_end_held {offset : Nat} {record : Record} (hp : r.readPart = ⟨.ok none, s, notices⟩)
    (hheld : s.grouping.held = some (offset, record)) :
    r.read = ⟨.ok (some record),
      { s with grouping := .empty, recordsRead := s.recordsRead + 1 }, notices⟩ := by
  rw [read, hp]
  dsimp only [Grouping.finish]
  rw [hheld]
  rfl

theorem read_end_none (hp : r.readPart = ⟨.ok none, s, notices⟩) (hheld : s.grouping.held = none) :
    r.read = ⟨.ok none, { s with grouping := .empty }, notices⟩ := by
  rw [read, hp]
  dsimp only [Grouping.finish]
  rw [hheld]
  rfl

theorem read_push_some {next record : Record} {grouping : Grouping}
    (hp : r.readPart = ⟨.ok (some next), s, notices⟩)
    (hpush : s.grouping.push r.position next = (some record, grouping)) :
    r.read = ⟨.ok (some record), { s with grouping, recordsRead := s.recordsRead + 1 },
      notices ++ s.grouping.pushNotices next⟩ := by
  rw [read, hp]
  dsimp only
  rw [hpush]

theorem read_push_none {next : Record} {grouping : Grouping}
    (hp : r.readPart = ⟨.ok (some next), s, notices⟩)
    (hpush : s.grouping.push r.position next = (none, grouping)) :
    r.read = ⟨({ s with grouping } : Reader).read.result, ({ s with grouping } : Reader).read.state,
      notices ++ s.grouping.pushNotices next ++ ({ s with grouping } : Reader).read.notices⟩ := by
  rw [read, hp]
  dsimp only
  rw [hpush]

end

/-! ## All calls -/

/-- What one call gives is the first of the logical records, and the others stay ahead. -/
theorem read_spec {r : Reader} {parts : List Record} (h : r.Before parts) :
    (grouped r.held? parts = [] ∧ r.read.result = .ok none) ∨
      ∃ record later, r.read.result = .ok (some record) ∧ r.read.state.Before later ∧
        grouped r.held? parts = record :: grouped r.read.state.held? later := by
  induction parts generalizing r with
  | nil =>
    obtain ⟨hsteady, hholds⟩ := h
    obtain ⟨source, hp, hsource, hup⟩ :=
      readPart_end hsteady (by generalize r.source.upcoming = bs at hholds; cases hholds; rfl)
    cases hheld : r.grouping.held with
    | none =>
      left
      rw [read_end_none hp hheld]
      exact ⟨by simp [held?, hheld, grouped], rfl⟩
    | some held =>
      obtain ⟨offset, record⟩ := held
      right
      rw [read_end_held hp hheld]
      refine ⟨record, [], rfl, ⟨hsource, ?_⟩, ?_⟩
      · rw [hup]
        exact .nil
      · simp [held?, hheld, grouped, Grouping.empty]
  | cons next parts ih =>
    obtain ⟨hsteady, hholds⟩ := h
    generalize hbytes : r.source.upcoming = bytes at hholds
    cases hholds with
    | @cons bs rest _ _ whole later =>
      obtain ⟨source, notices, hp, hsource, hup⟩ := readPart_of_whole hsteady hbytes whole
      have hbefore (grouping : Grouping) (recordsRead : Nat) :
          Before ⟨source, r.position + bs.length, grouping, recordsRead⟩ parts :=
        ⟨hsource, hup ▸ later⟩
      cases hheld : r.grouping.held with
      | none =>
        have hpush : r.grouping.push r.position next = (none, ⟨some (r.position, next)⟩) := by
          simp only [Grouping.push, hheld]
        have hgrouped : grouped r.held? (next :: parts) = grouped (some next) parts := by
          rw [held?, hheld]
          rfl
        rw [read_push_none hp hpush, hgrouped]
        exact ih (hbefore ⟨some (r.position, next)⟩ r.recordsRead)
      | some held =>
        obtain ⟨offset, record⟩ := held
        by_cases hcont : continues record next = true
        · have hpush : r.grouping.push r.position next =
              (none, ⟨some (offset, record.merge next)⟩) := by
            simp only [Grouping.push, hheld, if_pos hcont]
          have hgrouped : grouped r.held? (next :: parts) =
              grouped (some (record.merge next)) parts := by
            rw [held?, hheld, Option.map_some, grouped, if_pos hcont]
          rw [read_push_none hp hpush, hgrouped]
          exact ih (hbefore ⟨some (offset, record.merge next)⟩ r.recordsRead)
        · right
          have hpush : r.grouping.push r.position next =
              (some record, ⟨some (r.position, next)⟩) := by
            simp only [Grouping.push, hheld, if_neg hcont]
          rw [read_push_some hp hpush]
          refine ⟨record, parts, rfl, hbefore _ _, ?_⟩
          simp only [held?, hheld, Option.map_some, grouped, if_neg hcont]

/-- **The reader gives what grouping makes of the physical records.** -/
theorem gives_grouped {r : Reader} {parts : List Record} (h : r.Before parts) :
    RecordReader.Gives (.binary r) (grouped r.held? parts) := by
  generalize hout : grouped r.held? parts = out
  induction out generalizing r parts with
  | nil =>
    rcases read_spec h with ⟨_, hread⟩ | ⟨record, later, _, _, hgrouped⟩
    · exact .done hread
    · rw [hout] at hgrouped
      cases hgrouped
  | cons record out ih =>
    rcases read_spec h with ⟨hnil, _⟩ | ⟨record', later, hread, hbefore, hgrouped⟩
    · rw [hout] at hnil
      cases hnil
    · rw [hout] at hgrouped
      obtain ⟨rfl, hrest⟩ := List.cons.inj hgrouped
      exact .record hread (ih hbefore hrest.symm)

end Reader

end Marc21.Iso2709
