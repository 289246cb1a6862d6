import Marc21.Proofs.Iso2709.Steady
import Marc21.Proofs.Iso2709.RoundTrip

/-!
Going back to a record. As long as all goes well, the stream stands at the reader's position, and the record
held back is the physical record at its own offset, up to that position (`Settled`). So a reader that goes to
where another one was reads on as that one did (`read_seek_tell`).
-/

namespace Marc21.Iso2709.Reader

/-- A reader of a stream of these bytes, on which neither reading nor going back fails. -/
structure OnStream (content : Bytes) (r : Reader) : Prop where
  content_eq : r.source.content.toList = content
  steady : r.source.Steady
  seekFailure_eq : r.source.seekFailure = none

/-- The stream stands at the reader's position. -/
structure Aligned (content : Bytes) (r : Reader) : Prop extends OnStream content r where
  upcoming_eq : r.source.upcoming = content.drop r.position

/-- Nothing was merged yet into the record held back, and the position is right behind it. -/
structure Settled (content : Bytes) (r : Reader) : Prop extends Aligned content r where
  held : ∀ held ∈ r.grouping.held,
    (partRead held.1 (content.drop held.1)).result = .ok (some held.2) ∧
      r.position = held.1 + (partRead held.1 (content.drop held.1)).taken

/-- A reader of a stream after calls that all went well: records were read, or the end was met, and the
reader went to any offsets in between. -/
inductive Visited (source : Source) : Reader → Prop where
  | ofSource : Visited source (ofSource source)
  | read {r : Reader} {record : Option Record} (h : Visited source r)
      (hread : r.read.result = .ok record) : Visited source r.read.state
  | seek {r : Reader} (h : Visited source r) (offset : Nat) : Visited source (r.seek offset).state
  | rewind {r : Reader} (h : Visited source r) : Visited source r.rewind.state

section

variable {content : Bytes} {r : Reader}

theorem tell_of_held_none (h : r.grouping.held = none) : r.tell = r.position := by
  rw [tell, Grouping.heldOffset?, h]
  rfl

theorem tell_of_held_some {held : Nat × Record} (h : r.grouping.held = some held) : r.tell = held.1 := by
  rw [tell, Grouping.heldOffset?, h]
  rfl

theorem OnStream.withGrouping (h : OnStream content r) (g : Grouping) (n : Nat) :
    OnStream content { r with grouping := g, recordsRead := n } :=
  ⟨h.content_eq, h.steady, h.seekFailure_eq⟩

theorem Aligned.withGrouping (h : Aligned content r) (g : Grouping) (n : Nat) :
    Aligned content { r with grouping := g, recordsRead := n } :=
  ⟨h.toOnStream.withGrouping g n, h.upcoming_eq⟩

theorem OnStream.readPart (h : OnStream content r) : OnStream content r.readPart.state := by
  obtain ⟨_, source, hstate, hsteady, _, hstream⟩ := readPart_spec h.steady
  rw [hstate]
  refine ⟨?_, hsteady, ?_⟩
  · rw [hstream.content_eq]
    exact h.content_eq
  · rw [hstream.seekFailure_eq]
    exact h.seekFailure_eq

/-- Whatever a call comes to, the stream stays the same. -/
theorem OnStream.read (h : OnStream content r) : OnStream content r.read.state := by
  generalize hn : r.source.remaining = n
  induction n using Nat.strongRecOn generalizing r with
  | ind n ih =>
    cases hr : r.readPart.result with
    | error e =>
      rw [(read_of_error hr).2]
      exact h.readPart
    | ok part =>
      cases part with
      | none =>
        obtain ⟨_, m, hstate⟩ := read_of_none hr
        rw [hstate]
        exact h.readPart.withGrouping _ _
      | some next =>
        cases hpush : r.grouping.push r.position next with
        | mk out g =>
          cases out with
          | some record =>
            obtain ⟨_, m, hstate⟩ := read_of_push_some hr hpush
            rw [hstate]
            exact h.readPart.withGrouping _ _
          | none =>
            rw [(read_of_push_none hr hpush).2]
            exact ih _ (hn ▸ readPart_less hr) (h.readPart.withGrouping g _) rfl

/-- A physical record that was read lies between the two positions. -/
theorem Aligned.readPart {found : Option Record} (h : Aligned content r)
    (hread : r.readPart.result = .ok found) :
    Aligned content r.readPart.state ∧
      (partRead r.position (content.drop r.position)).result = .ok found ∧
      r.readPart.state.position =
        r.position + (partRead r.position (content.drop r.position)).taken := by
  have hstream := h.toOnStream.readPart
  obtain ⟨hresult, source, hstate, _, hup, _⟩ := readPart_spec h.steady
  rw [h.upcoming_eq] at hresult hstate hup
  rw [hread] at hresult
  have hmoved : (partRead r.position (content.drop r.position)).moved =
      (partRead r.position (content.drop r.position)).taken := by
    cases found with
    | some next => exact partRead_some hresult.symm
    | none =>
      rw [partRead_none hresult.symm]
      rfl
  rw [hmoved] at hstate
  refine ⟨⟨hstream, ?_⟩, hresult.symm, by rw [hstate]⟩
  rw [hstate]
  dsimp only
  rw [hup, List.drop_drop]

/-- A call that goes well leaves at most one physical record held back, the last one that was read. -/
theorem Aligned.read {found : Option Record} (h : Aligned content r)
    (hread : r.read.result = .ok found) : Settled content r.read.state := by
  generalize hn : r.source.remaining = n
  induction n using Nat.strongRecOn generalizing r with
  | ind n ih =>
    cases hr : r.readPart.result with
    | error e =>
      rw [(read_of_error hr).1] at hread
      cases hread
    | ok part =>
      obtain ⟨hafter, hpart, hposition⟩ := h.readPart hr
      cases part with
      | none =>
        obtain ⟨_, m, hstate⟩ := read_of_none hr
        rw [hstate]
        exact ⟨hafter.withGrouping _ _, by simp [Grouping.empty]⟩
      | some next =>
        cases hpush : r.grouping.push r.position next with
        | mk out g =>
          cases out with
          | some record =>
            obtain ⟨_, m, hstate⟩ := read_of_push_some hr hpush
            have hg : g = ⟨some (r.position, next)⟩ := by
              unfold Grouping.push at hpush
              split at hpush
              · cases hpush
              · split at hpush <;> cases hpush
                rfl
            rw [hstate, hg]
            refine ⟨hafter.withGrouping _ _, ?_⟩
            rintro held ⟨⟩
            exact ⟨hpart, hposition⟩
          | none =>
            obtain ⟨hresult, hstate⟩ := read_of_push_none hr hpush
            rw [hstate]
            exact ih _ (hn ▸ readPart_less hr) (hafter.withGrouping g _) (hresult ▸ hread) rfl

/-- Going to an offset forgets everything that came before. -/
theorem OnStream.seek (h : OnStream content r) (offset : Nat) :
    (r.seek offset).result = .ok () ∧ Settled content (r.seek offset).state ∧
      (r.seek offset).state.position = offset ∧ (r.seek offset).state.grouping = .empty := by
  obtain ⟨source, hsource, hstream, hfail, hup⟩ := Source.seek_spec h.seekFailure_eq offset
  have hseek : r.seek offset =
      ⟨.ok (), { r with source, position := offset, grouping := .empty }, []⟩ := by
    rw [Reader.seek, hsource]
  rw [hseek]
  refine ⟨rfl, ⟨⟨⟨?_, hfail.trans h.steady, ?_⟩, ?_⟩, by simp [Grouping.empty]⟩, rfl, rfl⟩
  · rw [hstream.content_eq]
    exact h.content_eq
  · rw [hstream.seekFailure_eq]
    exact h.seekFailure_eq
  · rw [hup, h.content_eq]

theorem Visited.settled {source : Source} (hsteady : source.Steady)
    (hseek : source.seekFailure = none) (hstart : source.upcoming = source.content.toList)
    (h : Visited source r) : Settled source.content.toList r := by
  induction h with
  | ofSource => exact ⟨⟨⟨rfl, hsteady, hseek⟩, hstart⟩, by simp [Reader.ofSource, Grouping.empty]⟩
  | read _ hread ih => exact ih.toAligned.read hread
  | seek _ offset ih => exact (ih.toOnStream.seek offset).2.1
  | rewind _ ih => exact (ih.toOnStream.seek 0).2.1

/-- A reader that went to where a settled one stands does on the next call what that one does. -/
theorem Settled.read_eq {s : Reader} (h : Settled content r) (hs : Settled content s)
    (hposition : s.position = r.tell) (hempty : s.grouping = .empty) :
    s.read.result = r.read.result ∧ s.read.state.tell = r.read.state.tell := by
  obtain ⟨⟨held⟩, hr⟩ : ∃ g : Grouping, r.grouping = g := ⟨_, rfl⟩
  cases held with
  | none =>
    have htell : r.tell = r.position := tell_of_held_none (by rw [hr])
    have halike : Alike s r := ⟨hs.steady, h.steady, by rw [hs.upcoming_eq, h.upcoming_eq, hposition, htell],
      hposition.trans htell, hempty.trans hr.symm⟩
    exact ⟨halike.read.1, halike.read.2.tell_eq⟩
  | some held =>
    obtain ⟨offset, chunk⟩ := held
    have htell : r.tell = offset := tell_of_held_some (by rw [hr])
    rw [htell] at hposition
    obtain ⟨hchunk, hbehind⟩ := h.held (offset, chunk) (by rw [hr]; rfl)
    dsimp only at hchunk hbehind
    -- The chunk is read again, and then both readers stand at the same point.
    have hpart : s.readPart.result = .ok (some chunk) := by
      rw [(readPart_spec hs.steady).1, hs.upcoming_eq, hposition]
      exact hchunk
    obtain ⟨hafter, _, hmoved⟩ := hs.toAligned.readPart hpart
    have hpush : s.grouping.push s.position chunk = (none, r.grouping) := by
      rw [hempty, hposition, hr]
      rfl
    obtain ⟨hresult, hstate⟩ := read_of_push_none hpart hpush
    have halike : Alike { s.readPart.state with grouping := r.grouping } r := by
      have hsame : s.readPart.state.position = r.position := by rw [hmoved, hposition, hbehind]
      exact ⟨hafter.steady, h.steady, by rw [hafter.upcoming_eq, h.upcoming_eq, hsame], hsame, rfl⟩
    rw [hresult, hstate]
    exact ⟨halike.read.1, halike.read.2.tell_eq⟩

end

/-! ## Main result -/

/-- **Going back.** If a reader says where it is and then gives a record, any reader of the stream that goes
there gives that record again, and then both are at the same offset. It does not matter of how many physical
records it was made, nor what the other reader holds back before it goes there. -/
theorem read_seek_tell {source : Source} (hsteady : source.Steady) (hseek : source.seekFailure = none)
    (hstart : source.upcoming = source.content.toList) {r s : Reader} (hr : Visited source r)
    (hs : Visited source s) {record : Record} (hread : r.read.result = .ok (some record)) :
    (s.seek r.tell).result = .ok () ∧
      (s.seek r.tell).state.read.result = .ok (some record) ∧
      (s.seek r.tell).state.read.state.tell = r.read.state.tell := by
  have hback := (hs.settled hsteady hseek hstart).toOnStream.seek r.tell
  obtain ⟨hresult, hsettled, hposition, hempty⟩ := hback
  obtain ⟨hagain, htell⟩ := (hr.settled hsteady hseek hstart).read_eq hsettled hposition hempty
  exact ⟨hresult, hagain.trans hread, htell⟩

/-! ## A stream of written records -/

theorem grouped_some_ne_nil (r : Record) (parts : List Record) : grouped (some r) parts ≠ [] := by
  induction parts generalizing r with
  | nil => exact List.cons_ne_nil _ _
  | cons next parts ih =>
    rw [grouped]
    split
    · exact ih _
    · exact List.cons_ne_nil _ _

/-- The bytes of all parts of some records. -/
def encodeAll (rs : List Record) : Bytes :=
  rs.flatMap fun r => ((parts r.fields).map fun p => p.encode r.leader).flatten

theorem holds_encodeAll {rs : List Record} (hrs : ∀ r ∈ rs, r.Storable) :
    Holds (encodeAll rs) (physicals rs) := by
  induction rs with
  | nil => exact .nil
  | cons r rs ih =>
    obtain ⟨hr, hrs⟩ := List.forall_mem_cons.1 hrs
    exact (holds_record hr).append (ih hrs)

/-- Where there is a record, the first call gives one. -/
theorem read_encodeAll {r : Record} {rs : List Record} (hrs : ∀ s ∈ r :: rs, s.Storable) :
    ∃ record, (Reader.ofSource (.ofBytes (encodeAll (r :: rs)))).read.result = .ok (some record) := by
  have hbefore : Before (.ofSource (.ofBytes (encodeAll (r :: rs)))) (physicals (r :: rs)) := by
    refine ⟨Source.steady_ofBytes _, ?_⟩
    rw [Reader.ofSource, Source.upcoming_ofBytes]
    exact holds_encodeAll hrs
  rcases read_spec hbefore with ⟨hnone, _⟩ | ⟨record, _, hread, _, _⟩
  · have hgrouped := grouped_parts (hrs r List.mem_cons_self) (physicals rs)
    rw [physicals, List.flatMap_cons, ← physicals] at hnone
    exact absurd (hgrouped.symm.trans hnone) (grouped_some_ne_nil _ _)
  · exact ⟨record, hread⟩

/-- The first two records have one control number. They come out as one record, and do so again for a reader
that holds back the third one when it goes back to the front. -/
theorem read_seek_tell_titled :
    let rs := [titled "1" "10\x1FaA", titled "1" "  \x1FaB", titled "2" "  \x1FaC"]
    let r := Reader.ofSource (.ofBytes (encodeAll rs))
    let back := (r.read.state.seek r.tell).state
    ∃ record, r.read.result = .ok (some record) ∧ back.read.result = .ok (some record) ∧
      back.read.state.tell = r.read.state.tell := by
  intro rs r back
  have hrs : ∀ s ∈ rs, s.Storable := by
    intro s hs
    simp only [rs, List.mem_cons, List.not_mem_nil, or_false] at hs
    rcases hs with rfl | rfl | rfl
    all_goals exact storable_titled (by decide)
  obtain ⟨record, hread⟩ : ∃ record, r.read.result = .ok (some record) := read_encodeAll hrs
  have hstart : (Source.ofBytes (encodeAll rs)).upcoming =
      (Source.ofBytes (encodeAll rs)).content.toList := by
    rw [Source.upcoming_ofBytes]
    rfl
  obtain ⟨_, hagain, htell⟩ := read_seek_tell (Source.steady_ofBytes _) rfl hstart .ofSource
    (.read .ofSource hread) hread
  exact ⟨record, hread, hagain, htell⟩

end Marc21.Iso2709.Reader
