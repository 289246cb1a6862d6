import Marc21.Proofs.Iso2709.Acceptance
import Marc21.Proofs.Iso2709.Position
import Marc21.Proofs.Record.Origin

/-!
Records that were read are written and read again. What can be read to the end is a sequence of whole physical
records (`readAll_eq_ok_iff_holds`). So the fields of what was read are in order and hold no terminator, and
such a record is read back as it was, if it can be written at all (`storable`, `fields_readBack`).
-/

namespace Marc21

namespace Iso2709

/-! ## Streams that can be read to the end -/

namespace Reader

/-- A physical record off a stream that does not fail is whole. -/
theorem whole_of_partRead {position : Nat} {bs : Bytes} {next : Record}
    (h : (partRead position bs).result = .ok (some next)) :
    Whole (bs.take (partRead position bs).taken) next := by
  unfold partRead at h ⊢
  dsimp only at h ⊢
  split at h
  · cases h
  · split at h
    · cases h
    · split at h
      · cases h
      · next hnil hshort _ length hlength =>
        split at h
        · cases h
        · next hlong =>
          simp only [if_neg hnil, if_neg hshort, if_neg hlong]
          have hle := le_of_recordLength? hlength
          have htake : (bs.take length).take 5 = bs.take 5 := by
            rw [List.take_take, Nat.min_eq_left (by omega)]
          refine ⟨by rw [htake, hlength, List.length_take, Nat.min_eq_left (Nat.not_lt.1 hlong)], ?_⟩
          simp only [Except.map] at h
          split at h
          · cases h
          · next hparse =>
            cases h
            exact hparse

/-- A physical record that is only taken in makes no difference to what the calls give. -/
theorem gives_of_push_none {r : Reader} {next : Record} {g : Grouping} {out : List Record}
    (h : r.readPart.result = .ok (some next)) (hpush : r.grouping.push r.position next = (none, g))
    (hgives : RecordReader.Gives (.binary r) out) :
    RecordReader.Gives (.binary { r.readPart.state with grouping := g }) out := by
  obtain ⟨hresult, hstate⟩ := read_of_push_none h hpush
  cases hgives with
  | done hnone => exact .done (hresult.symm.trans hnone)
  | record hsome rest =>
    refine .record (hresult.symm.trans hsome) ?_
    rw [show (RecordReader.binary r).read.state = .binary r.read.state from rfl, hstate] at rest
    exact rest

theorem exists_holds {r : Reader} {out : List Record} (hs : r.source.Steady)
    (h : RecordReader.Gives (.binary r) out) : ∃ parts, Holds r.source.upcoming parts := by
  generalize hlength : r.source.upcoming.length = length
  induction length using Nat.strongRecOn generalizing r out with
  | ind length ih =>
    by_cases hnil : r.source.upcoming = []
    · exact ⟨[], hnil ▸ .nil⟩
    · obtain ⟨hresult, source, hstate, hsteady, hup, _⟩ := readPart_spec hs
      have hpos : 0 < (partRead r.position r.source.upcoming).taken := partRead_taken_pos hnil
      have hless : r.readPart.state.source.upcoming.length < length := by
        rw [hstate, hup, List.length_drop, hlength]
        have := List.length_pos_iff.2 hnil
        omega
      have hsource : r.readPart.state.source.Steady := hstate ▸ hsteady
      cases hpart : r.readPart.result with
      | error e =>
        have hfailed : (RecordReader.binary r).read.result = .error e := (read_of_error hpart).1
        cases h with
        | done h => cases hfailed.symm.trans h
        | record h => cases hfailed.symm.trans h
      | ok found =>
        cases found with
        | none => exact absurd (partRead_none (hresult ▸ hpart)) hnil
        | some next =>
          have hwhole := whole_of_partRead (hresult ▸ hpart)
          have hlater : ∃ parts, Holds r.readPart.state.source.upcoming parts := by
            cases hpush : r.grouping.push r.position next with
            | mk done g =>
              cases done with
              | none =>
                exact ih _ hless (r := { r.readPart.state with grouping := g }) hsource
                  (gives_of_push_none hpart hpush h) rfl
              | some record =>
                obtain ⟨hread, n, hafter⟩ := read_of_push_some hpart hpush
                cases h with
                | done h => cases hread.symm.trans h
                | record _ rest =>
                  rw [show (RecordReader.binary r).read.state = .binary r.read.state from rfl,
                    hafter] at rest
                  exact ih _ hless (r := { r.readPart.state with grouping := g, recordsRead := n })
                    hsource rest rfl
          obtain ⟨parts, hparts⟩ := hlater
          rw [hstate, hup] at hparts
          refine ⟨next :: parts, ?_⟩
          rw [← List.take_append_drop (partRead r.position r.source.upcoming).taken r.source.upcoming]
          exact .cons hwhole hparts

/-- **What is read to the end is a sequence of whole physical records, grouped.** -/
theorem readAll_eq_ok_iff_holds {source : Source} (hs : source.Steady) {rs : List Record} :
    (RecordReader.binary (.ofSource source)).readAll.result = .ok rs ↔
      ∃ parts, Holds source.upcoming parts ∧ rs = grouped none parts := by
  have hgives {parts : List Record} (hparts : Holds source.upcoming parts) :
      (RecordReader.binary (.ofSource source)).readAll.result = .ok (grouped none parts) :=
    RecordReader.readAll_of_gives (gives_grouped (r := ofSource source) ⟨hs, hparts⟩)
  constructor
  · intro h
    obtain ⟨parts, hparts⟩ := exists_holds (r := ofSource source) hs (RecordReader.gives_of_readAll h)
    exact ⟨parts, hparts, Except.ok.inj (h.symm.trans (hgives hparts))⟩
  · rintro ⟨parts, hparts, rfl⟩
    exact hgives hparts

end Reader

/-! ## What was read -/

/-- What merging keeps and every physical record has is true of what grouping makes of them. -/
theorem forall_grouped {p : Record → Prop} (hmerge : ∀ {r s}, p r → p s → p (r.merge s))
    {held : Option Record} {parts : List Record} (hheld : ∀ r ∈ held, p r) (hparts : ∀ r ∈ parts, p r) :
    ∀ r ∈ grouped held parts, p r := by
  induction parts generalizing held with
  | nil => simpa [grouped] using hheld
  | cons next parts ih =>
    obtain ⟨hnext, hparts⟩ := List.forall_mem_cons.1 hparts
    cases held with
    | none => exact ih (by simpa using hnext) hparts
    | some r =>
      have hr : p r := hheld r rfl
      rw [grouped]
      split
      · exact ih (by simpa using hmerge hr hnext) hparts
      · exact List.forall_mem_cons.2 ⟨hr, ih (by simpa using hnext) hparts⟩

/-- The first record has the leader of the first physical one. -/
theorem leader_head?_grouped (first : Record) (parts : List Record) :
    (grouped (some first) parts).head?.map Record.leader = some first.leader := by
  induction parts generalizing first with
  | nil => rfl
  | cons next parts ih =>
    rw [grouped]
    split
    · exact ih (first.merge next)
    · rfl

/-- What is known of a record that was read in binary form. -/
structure Taken (r : Record) : Prop where
  received : r.Received
  clean : ∀ f ∈ r.fields, fieldTerminator ∉ Utf8.encode f.contents

theorem clean_of_readField {data : Array UInt8} {slice : Bytes} {f : Field}
    (h : readField data slice = .ok f) : fieldTerminator ∉ Utf8.encode f.contents := by
  obtain ⟨e, contents, _, hcontents, rfl⟩ := readField_eq_ok_iff.1 h
  obtain ⟨_, _, rfl⟩ := Entry.contents_eq_ok_iff.1 hcontents
  intro hmem
  have hraw := Utf8.mem_of_mem_encode_decodeLossy (by decide) (by decide) hmem
  simpa using List.mem_takeWhile_imp hraw

/-- Fields end at the first terminator, so there is none in them. -/
theorem taken_of_parse {bs : Bytes} {r : Record} (h : parse bs = .ok r) : Taken r := by
  refine ⟨parse_received h, ?_⟩
  unfold parse at h
  split at h
  · cases h
  · next l _ =>
    split at h
    · cases h
    · next fs hfields =>
      cases h
      unfold parseFields at hfields
      dsimp only at hfields
      split at hfields
      · cases hfields
      · intro f hf
        exact forall_of_mapM hfields (fun _ _ => clean_of_readField) f ((sortFields_perm fs).mem_iff.1 hf)

theorem Taken.merge {r s : Record} (hr : Taken r) (hs : Taken s) : Taken (r.merge s) := by
  refine ⟨⟨hr.received.wellFormed.merge s, hr.received.fits⟩, ?_⟩
  intro f hf
  have hmem : f ∈ r.fields ∨ f ∈ s.fields := by
    have hf := (sortFields_perm _).mem_iff.1 hf
    rcases List.mem_append.1 hf with hf | hf
    · exact .inl hf
    · right
      split at hf
      · exact List.mem_of_mem_filter hf
      · exact hf
  exact hmem.elim (hr.clean f) (hs.clean f)

theorem taken_of_holds {bs : Bytes} {parts : List Record} (h : Holds bs parts) :
    ∀ r ∈ parts, Taken r := by
  induction h with
  | nil => simp
  | cons whole later ih => exact List.forall_mem_cons.2 ⟨taken_of_parse whole.parse_eq, ih⟩

theorem taken_of_readAll {source : Source} (hs : source.Steady) {rs : List Record}
    (h : (RecordReader.binary (.ofSource source)).readAll.result = .ok rs) : ∀ r ∈ rs, Taken r := by
  obtain ⟨parts, hparts, rfl⟩ := (Reader.readAll_eq_ok_iff_holds hs).1 h
  exact forall_grouped Taken.merge (by simp) (taken_of_holds hparts)

/-! ## Writing it again -/

section

variable {r : Record}

/-- A record that was read and is accepted by the writer comes through. -/
theorem Taken.storable (h : Taken r) {chunks : List Bytes} (hr : Writer.encoded r = .ok chunks)
    (hsingle : (r.fields.filter (·.tag = Tag.controlNumber)).length = 1) : r.Storable := by
  obtain ⟨hvalid, hsplit⟩ := Writer.encoded_eq_ok hr
  exact ⟨hvalid, fun f hf => ⟨(split_eq_ok hsplit).1 f hf, h.clean f hf⟩, hsingle,
    h.received.fits.encodable⟩

theorem Taken.fields_readBack (h : Taken r) : (readBack r).fields = r.fields :=
  sortFields_of_ordered h.received.wellFormed.ordered

/-- What is asked of a valid record is a matter of its fields and its control number. -/
theorem isValid_readBack (hr : r.Storable) (hfields : (readBack r).fields = r.fields) :
    (readBack r).isValid = r.isValid := by
  simp only [Record.isValid, Record.flaw?, controlNumber?_readBack hr, Record.dataFields, hfields]

/-- And it can be written once more. -/
theorem encoded_readBack (hr : r.Storable) (hfields : (readBack r).fields = r.fields) :
    ∃ chunks, Writer.encoded (readBack r) = .ok chunks :=
  ⟨_, encoded_of_isValid ((isValid_readBack hr hfields).trans hr.valid) fun f hf =>
    (hr.fields f (hfields ▸ hf)).length_le⟩

/-- Records with different neighbours are read back from the bytes that they are written as. -/
theorem readAll_of_upcoming {source : Source} (hs : source.Steady) {rs : List Record}
    (hrs : ∀ r ∈ rs, r.Storable) (hdiffer : rs.IsChain fun r s => r.controlNumber? ≠ s.controlNumber?)
    (hup : source.upcoming = Reader.encodeAll rs) :
    (RecordReader.binary (.ofSource source)).readAll.result = .ok (rs.map readBack) :=
  (Reader.readAll_eq_ok_iff_holds hs).2
    ⟨physicals rs, hup ▸ Reader.holds_encodeAll hrs, (grouped_physicals hrs hdiffer).symm⟩

end

end Iso2709

end Marc21
