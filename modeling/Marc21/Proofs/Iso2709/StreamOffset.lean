import Marc21.Proofs.Iso2709.Position

/-!
Whether the reader's position is where the stream stands. The reader moves its position only when all bytes of
a physical record are there. Five bytes that give no usable length were taken off the stream by then, and the
reader may go on behind them. So the position falls back by five bytes with each such error, until the reader
goes to an offset (`stands_of_reached`), and it is right as long as there was none.
-/

namespace Marc21

theorem error_ne_error {ε α : Type} {e e' : ε} (h : e' ≠ e) : (.error e' : Except ε α) ≠ .error e :=
  fun heq => h (Except.error.inj heq)

/-- Steps that do not fail in some way do not fail in that way one after the other. -/
theorem bind_ne_error {ε α β : Type} {x : Except ε α} {f : α → Except ε β} {e : ε} (hx : x ≠ .error e)
    (hf : ∀ a, f a ≠ .error e) : (x >>= f) ≠ .error e := by
  cases x with
  | error e' => exact fun h => hx (congrArg Except.error (Except.error.inj h))
  | ok a => exact hf a

namespace Leader

variable {text : String} {offset : Nat}

theorem number_ne_lengthUnusable {what : LeaderNumber} {bs : Bytes} :
    number what bs ≠ .error (.lengthUnusable text offset) := by
  unfold number
  split <;> simp

theorem count_ne_lengthUnusable {what : LeaderCount} {b : UInt8} :
    count what b ≠ .error (.lengthUnusable text offset) := by
  unfold count
  split <;> simp

theorem ofBytes_ne_lengthUnusable {bs : Bytes} :
    ofBytes bs ≠ .error (.lengthUnusable text offset) := by
  unfold ofBytes
  dsimp only
  split
  · exact error_ne_error nofun
  · split
    · exact error_ne_error nofun
    · exact bind_ne_error number_ne_lengthUnusable fun _ => bind_ne_error count_ne_lengthUnusable fun _ =>
        bind_ne_error count_ne_lengthUnusable fun _ => bind_ne_error number_ne_lengthUnusable fun _ => nofun

theorem checkLengths_ne_lengthUnusable {l : Leader} :
    l.checkLengths ≠ .error (.lengthUnusable text offset) := by
  unfold checkLengths
  by_cases hlength : l.recordLength < 24
  · rw [if_pos hlength]
    exact error_ne_error nofun
  by_cases hbase : l.baseAddress < 24
  · rw [if_neg hlength, if_pos hbase]
    exact error_ne_error nofun
  rw [if_neg hlength, if_neg hbase]
  dsimp only
  split
  · exact error_ne_error nofun
  · nofun

end Leader

namespace Iso2709

/-- What is wrong within a physical record is never the length by which it was found. -/
theorem parse_ne_lengthUnusable {bs : Bytes} {text : String} {offset : Nat} :
    parse bs ≠ .error (.malformedLeader (.lengthUnusable text offset)) := by
  have hleader : parseLeader bs ≠ .error (.lengthUnusable text offset) := by
    refine bind_ne_error Leader.ofBytes_ne_lengthUnusable fun l =>
      bind_ne_error Leader.checkLengths_ne_lengthUnusable fun _ => ?_
    dsimp only
    split
    · exact error_ne_error nofun
    · nofun
  intro h
  unfold parse at h
  split at h
  · next fault hfault =>
    cases h
    exact hleader hfault
  · split at h <;> cases h

namespace Reader

/-- The bytes that a call with this result took without counting them. -/
def uncounted : Except MarcError (Option Record) → Nat
  | .error (.malformedLeader (.lengthUnusable _ _)) => 5
  | _ => 0

/-- A reader of a stream after any calls, and the bytes it did not count since it last went to an offset. -/
inductive Reached (source : Source) : Nat → Reader → Prop where
  | ofSource : Reached source 0 (ofSource source)
  | read {n : Nat} {r : Reader} (h : Reached source n r) :
    Reached source (n + uncounted r.read.result) r.read.state
  | seek {n : Nat} {r : Reader} (h : Reached source n r) (offset : Nat) :
    Reached source 0 (r.seek offset).state
  | rewind {n : Nat} {r : Reader} (h : Reached source n r) : Reached source 0 r.rewind.state

/-- Unless it is at its end, the stream stands this many bytes behind the reader's position. -/
structure Lagging (content : Bytes) (lag : Nat) (r : Reader) : Prop extends OnStream content r where
  upcoming_eq : r.source.upcoming ≠ [] → r.source.upcoming = content.drop (r.position + lag)

section

variable {content : Bytes} {lag : Nat} {r : Reader}

/-- What is taken of a physical record is counted or known not to be, if there is anything behind it. -/
theorem partRead_taken {position : Nat} {bs : Bytes} (h : bs.drop (partRead position bs).taken ≠ []) :
    (partRead position bs).taken =
      (partRead position bs).moved + uncounted (partRead position bs).result := by
  unfold partRead at h ⊢
  dsimp only at h ⊢
  by_cases hnil : bs.take 5 = []
  · rw [if_pos hnil]
    rfl
  rw [if_neg hnil] at h ⊢
  by_cases hshort : (bs.take 5).length < 5
  · -- The stream ends before there are five bytes.
    rw [if_pos hshort] at h
    rw [List.length_take] at hshort
    refine absurd (List.drop_of_length_le ?_) h
    dsimp only
    rw [List.length_take]
    omega
  rw [if_neg hshort] at h ⊢
  cases hlength : recordLength? (bs.take 5) with
  | none => rfl
  | some length =>
    rw [hlength] at h
    dsimp only at h ⊢
    by_cases hlong : bs.length < length
    · -- And here it ends before the record does.
      rw [if_pos hlong] at h
      exact absurd (List.drop_length) h
    · rw [if_neg hlong]
      have hcounted : uncounted ((parse (bs.take length)).map some) = 0 := by
        cases hparse : parse (bs.take length) with
        | ok r => rfl
        | error e =>
          unfold uncounted
          split
          · next h =>
            cases h
            exact absurd hparse parse_ne_lengthUnusable
          · rfl
      rw [hcounted]
      rfl

theorem Lagging.readPart (h : Lagging content lag r) :
    Lagging content (lag + uncounted r.readPart.result) r.readPart.state := by
  have hstream := h.toOnStream.readPart
  obtain ⟨hresult, source, hstate, _, hup, _⟩ := readPart_spec h.steady
  refine ⟨hstream, fun hne => ?_⟩
  rw [hstate] at hne ⊢
  dsimp only at hne ⊢
  rw [hup] at hne ⊢
  have htaken := partRead_taken hne
  have hahead : r.source.upcoming ≠ [] := by
    intro hnil
    rw [hnil, List.drop_nil] at hne
    exact hne rfl
  rw [h.upcoming_eq hahead, List.drop_drop, ← h.upcoming_eq hahead, hresult, htaken]
  congr 1
  omega

theorem Lagging.withGrouping (h : Lagging content lag r) (g : Grouping) (n : Nat) :
    Lagging content lag { r with grouping := g, recordsRead := n } :=
  ⟨h.toOnStream.withGrouping g n, h.upcoming_eq⟩

/-- A call may take several physical records, and only an error may leave bytes that are not counted. -/
theorem Lagging.read (h : Lagging content lag r) :
    Lagging content (lag + uncounted r.read.result) r.read.state := by
  generalize hn : r.source.remaining = n
  induction n using Nat.strongRecOn generalizing r with
  | ind n ih =>
    have hafter := h.readPart
    cases hr : r.readPart.result with
    | error e =>
      obtain ⟨hresult, hstate⟩ := read_of_error hr
      rw [hresult, hstate, ← hr]
      exact hafter
    | ok part =>
      rw [hr] at hafter
      cases part with
      | none =>
        obtain ⟨hresult, m, hstate⟩ := read_of_none hr
        rw [hresult, hstate]
        exact hafter.withGrouping _ _
      | some next =>
        cases hpush : r.grouping.push r.position next with
        | mk out g =>
          cases out with
          | some record =>
            obtain ⟨hresult, m, hstate⟩ := read_of_push_some hr hpush
            rw [hresult, hstate]
            exact hafter.withGrouping _ _
          | none =>
            obtain ⟨hresult, hstate⟩ := read_of_push_none hr hpush
            rw [hresult, hstate]
            exact ih _ (hn ▸ readPart_less hr) (hafter.withGrouping g _) rfl

/-- Five bytes that give no usable length are behind the reader, and its position stays. -/
theorem read_of_unusable (hs : r.source.Steady) (hfive : 5 ≤ r.source.upcoming.length)
    (hlength : recordLength? (r.source.upcoming.take 5) = none) :
    uncounted r.read.result = 5 ∧ r.read.state.position = r.position ∧
      r.read.state.source.upcoming = r.source.upcoming.drop 5 := by
  obtain ⟨hresult, source, hstate, _, hup, _⟩ := readPart_spec hs
  have htaken : (r.source.upcoming.take 5).length = 5 := List.length_take_of_le hfive
  have hne : r.source.upcoming.take 5 ≠ [] := List.ne_nil_of_length_pos (by omega)
  unfold partRead at hresult hstate hup
  simp only [if_neg hne, htaken, if_neg (Nat.lt_irrefl 5), hlength] at hresult hstate hup
  obtain ⟨hread, hafter⟩ := read_of_error hresult
  rw [hread, hafter, hstate]
  exact ⟨rfl, rfl, hup⟩

theorem Lagging.seek (h : Lagging content lag r) (offset : Nat) :
    Lagging content 0 (r.seek offset).state := by
  have hafter := (h.toOnStream.seek offset).2.1
  exact ⟨hafter.toOnStream, fun _ => hafter.upcoming_eq⟩

theorem Reached.lagging {source : Source} {n : Nat} (hsteady : source.Steady)
    (hseek : source.seekFailure = none) (hstart : source.upcoming = source.content.toList)
    (h : Reached source n r) : Lagging source.content.toList n r := by
  induction h with
  | ofSource => exact ⟨⟨rfl, hsteady, hseek⟩, fun _ => hstart⟩
  | read _ ih => exact ih.read
  | seek _ offset ih => exact ih.seek offset
  | rewind _ ih => exact ih.seek 0

end

/-! ## Main result -/

/-- **Where a reader stands.** Whatever was called, the bytes before the next one are as many as the position
says, and five more for each unusable length that was met since the reader last went to an offset. -/
theorem stands_of_reached {source : Source} (hsteady : source.Steady) (hseek : source.seekFailure = none)
    (hstart : source.upcoming = source.content.toList) {n : Nat} {r : Reader} (h : Reached source n r)
    (hahead : r.source.upcoming ≠ []) :
    ∃ past, source.content.toList = past ++ r.source.upcoming ∧ past.length = r.position + n := by
  have hup := (h.lagging hsteady hseek hstart).upcoming_eq hahead
  rw [hup] at hahead ⊢
  have hlt : r.position + n < source.content.toList.length := by
    rw [← List.length_pos_iff, List.length_drop] at hahead
    omega
  exact ⟨_, (List.take_append_drop _ _).symm, List.length_take_of_le (Nat.le_of_lt hlt)⟩

/-- Six bytes of which the first five are no length. -/
theorem reached_unusable :
    let source := Source.ofBytes (Utf8.encode "abcdef")
    let r := (ofSource source).read.state
    Reached source 5 r ∧ r.position = 0 ∧ r.source.upcoming = Utf8.encode "f" := by
  intro source r
  have hup : (ofSource source).source.upcoming = Utf8.encode "abcdef" := Source.upcoming_ofBytes _
  obtain ⟨huncounted, hposition, hrest⟩ := read_of_unusable (r := ofSource source)
    (Source.steady_ofBytes _) (by rw [hup]; decide) (by rw [hup]; decide)
  have hreached : Reached source (0 + uncounted (ofSource source).read.result) r := .read .ofSource
  rw [huncounted] at hreached
  refine ⟨hreached, hposition, hrest.trans ?_⟩
  rw [hup]
  decide

theorem stands_of_reached_unusable :
    let source := Source.ofBytes (Utf8.encode "abcdef")
    let r := (ofSource source).read.state
    r.source.upcoming = Utf8.encode "f" ∧
      ∃ past, source.content.toList = past ++ r.source.upcoming ∧ past.length = r.position + 5 := by
  intro source r
  obtain ⟨hreached, _, hup⟩ := reached_unusable
  refine ⟨hup, stands_of_reached (Source.steady_ofBytes _) rfl ?_ hreached ?_⟩
  · rw [Source.upcoming_ofBytes]
    rfl
  · rw [hup]
    decide

/-- The position alone is wrong. The next byte is the last one, and the position is that of the first. -/
theorem position_behind_stream :
    let source := Source.ofBytes (Utf8.encode "abcdef")
    let r := (ofSource source).read.state
    Reached source 5 r ∧ r.source.upcoming ≠ [] ∧
      source.content.toList = Utf8.encode "abcde" ++ r.source.upcoming ∧
      (Utf8.encode "abcde").length ≠ r.position := by
  intro source r
  obtain ⟨hreached, hposition, hup⟩ := reached_unusable
  refine ⟨hreached, ?_, ?_, ?_⟩
  · rw [hup]
    decide
  · rw [hup]
    decide
  · rw [hposition]
    decide

end Reader

end Iso2709

end Marc21
