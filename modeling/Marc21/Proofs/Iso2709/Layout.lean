import Marc21.Proofs.Iso2709.Bounds

/-!
Which bytes are read as a physical record. `Layout` says what they have to look like: a leader whose lengths lie
within the bytes, and a directory of whole entries, each of which points to a span of the data. Spans may overlap
and need not end in a terminator. `parse` accepts these bytes and no others (`parse_layout`).
-/

namespace Marc21.Iso2709

/-- An entry whose numbers have their digits, with a span that lies in data of this size. -/
structure Entry.Within (available : Nat) (e : Entry) : Prop where
  length_pos : 1 ≤ e.length
  length_le : e.length ≤ 9999
  offset_le : e.offset ≤ 99999
  span_le : e.offset + e.length ≤ available

theorem Entry.Within.fits {available : Nat} {e : Entry} (h : e.Within available) : e.Fits :=
  ⟨h.length_le, h.offset_le⟩

/-- The field of an entry: what its span holds, up to the first terminator. -/
def Entry.field (bs : Bytes) (base : Nat) (e : Entry) : Field :=
  ⟨e.tag, Utf8.decodeLossy
    (((bs.drop (base + e.offset)).take e.length).takeWhile (· != fieldTerminator))⟩

/-- Bytes that start with a physical record of this leader and this directory. The directory ends at the first
terminator, or else right before the byte that should be one. -/
structure Layout (bs : Bytes) (l : Leader) (es : List Entry) : Prop where
  leader : Leader.ofBytes bs = .ok l
  base_ge : 24 ≤ l.baseAddress
  base_le : l.baseAddress ≤ l.recordLength
  length_le : l.recordLength ≤ bs.length
  directory : ((bs.take (l.baseAddress - 1)).drop 24).takeWhile (· != fieldTerminator) =
    es.flatMap Entry.encode
  within : ∀ e ∈ es, e.Within (l.recordLength - l.baseAddress)

section

variable {bs : Bytes} {l : Leader}

theorem directory_eq : directory l bs =
    ((bs.take (l.baseAddress - 1)).drop 24).takeWhile (· != fieldTerminator) := by
  rw [directory, List.drop_take]

theorem length_dataSegment (hlength : l.recordLength ≤ bs.length) :
    (dataSegment l bs).size = l.recordLength - l.baseAddress := by
  rw [dataSegment, List.size_toArray, List.length_take, List.length_drop]
  omega

/-- A span within the data is the span at the same place behind the base address. -/
theorem take_drop_dataSegment {offset length : Nat}
    (hle : offset + length ≤ l.recordLength - l.baseAddress) :
    ((dataSegment l bs).toList.drop offset).take length =
      (bs.drop (l.baseAddress + offset)).take length := by
  rw [dataSegment, List.drop_take, List.take_take, List.drop_drop, Nat.min_eq_left (by omega)]

/-- One entry, by what its twelve bytes say. -/
theorem readField_iff (hlength : l.recordLength ≤ bs.length) {slice : Bytes} (h : slice.length = 12)
    {f : Field} : readField (dataSegment l bs) slice = .ok f ↔ ∃ e : Entry, slice = e.encode ∧
      e.Within (l.recordLength - l.baseAddress) ∧ f = e.field bs l.baseAddress := by
  rw [readField_eq_ok_iff]
  simp only [Entry.ofBytes_eq_ok_iff h, Entry.contents_eq_ok_iff, length_dataSegment hlength]
  constructor
  · rintro ⟨e, _, ⟨hslice, hnine, hfive⟩, ⟨hpos, hspan, rfl⟩, rfl⟩
    exact ⟨e, hslice, ⟨hpos, hnine, hfive, hspan⟩, by rw [Entry.field, take_drop_dataSegment hspan]⟩
  · rintro ⟨e, hslice, hwithin, rfl⟩
    refine ⟨e, _, ⟨hslice, hwithin.length_le, hwithin.offset_le⟩,
      ⟨hwithin.length_pos, hwithin.span_le, rfl⟩, ?_⟩
    rw [Entry.field, take_drop_dataSegment hwithin.span_le]

/-- All entries, one after the other. -/
theorem exists_entries (hlength : l.recordLength ≤ bs.length) {slices : List Bytes} {fs : List Field}
    (hslices : ∀ slice ∈ slices, slice.length = 12)
    (hread : List.Forall₂ (fun slice f => readField (dataSegment l bs) slice = .ok f) slices fs) :
    ∃ es : List Entry, slices = es.map Entry.encode ∧
      (∀ e ∈ es, e.Within (l.recordLength - l.baseAddress)) ∧ fs = es.map (Entry.field bs l.baseAddress) := by
  induction hread with
  | nil => exact ⟨[], rfl, by simp, rfl⟩
  | cons hfirst _ ih =>
    obtain ⟨hslice, hslices⟩ := List.forall_mem_cons.1 hslices
    obtain ⟨es, rfl, hes, rfl⟩ := ih hslices
    obtain ⟨e, rfl, he, rfl⟩ := (readField_iff hlength hslice).1 hfirst
    exact ⟨e :: es, rfl, List.forall_mem_cons.2 ⟨he, hes⟩, rfl⟩

/-- The directory is read exactly if it is made of whole entries with spans in the data. -/
theorem parseFields_eq_ok_iff (hlength : l.recordLength ≤ bs.length) {fs : List Field} :
    parseFields l bs = .ok fs ↔ ∃ es : List Entry, directory l bs = es.flatMap Entry.encode ∧
      (∀ e ∈ es, e.Within (l.recordLength - l.baseAddress)) ∧ fs = es.map (Entry.field bs l.baseAddress) := by
  unfold parseFields
  dsimp only
  constructor
  · intro h
    split at h
    · cases h
    · next hwhole =>
      have hcount : (directory l bs).length = 12 * ((directory l bs).length / 12) := by omega
      obtain ⟨hflatten, _, hslices⟩ := entrySlices_spec hcount
      obtain ⟨es, hencode, hes, hfs⟩ := exists_entries hlength hslices (mapM_eq_ok_iff.1 h)
      rw [hencode, ← List.flatMap_def] at hflatten
      exact ⟨es, hflatten.symm, hes, hfs⟩
  · rintro ⟨es, hdir, hes, rfl⟩
    have hfits : ∀ e ∈ es, e.Fits := fun e he => (hes e he).fits
    rw [hdir, length_flatMap_encode hfits, Nat.mul_mod_right, if_neg (by simp),
      Nat.mul_div_cancel_left _ (by decide), entrySlices_flatMap hfits, mapM_eq_ok_iff, List.forall₂_map_left_iff,
      List.forall₂_map_right_iff, List.forall₂_same]
    exact fun e he => (readField_iff hlength (Entry.length_encode (hfits e he))).2 ⟨e, rfl, hes e he, rfl⟩

end

/-! ## Main result -/

/-- **A physical record is accepted exactly if it is laid out as one**, whatever the bytes are, and reading it
never takes a slice that is not there nor a number of more than 32 bits. The record has the fields that the
entries point to, put in order by a stable sort. -/
theorem parse_layout (bs : Bytes) : parseChecked bs = some (parse bs) ∧
    ∀ r, parse bs = .ok r ↔ ∃ l es, Layout bs l es ∧
      r = (Record.ofParts l (es.map (Entry.field bs l.baseAddress))).sorted := by
  refine ⟨parseChecked_eq bs, fun r => ?_⟩
  constructor
  · intro h
    unfold parse at h
    split at h
    · cases h
    · next l hleader =>
      obtain ⟨hread, hbase, hle, hlength⟩ := parseLeader_eq_ok_iff.1 hleader
      split at h
      · cases h
      · next fs hfields =>
        cases h
        obtain ⟨es, hdir, hes, rfl⟩ := (parseFields_eq_ok_iff hlength).1 hfields
        exact ⟨l, es, ⟨hread, hbase, hle, hlength, directory_eq ▸ hdir, hes⟩, rfl⟩
  · rintro ⟨l, es, h, rfl⟩
    have hleader := parseLeader_eq_ok_iff.2 ⟨h.leader, h.base_ge, h.base_le, h.length_le⟩
    have hfields := (parseFields_eq_ok_iff h.length_le).2 ⟨es, directory_eq ▸ h.directory, h.within, rfl⟩
    rw [parse, hleader]
    dsimp only
    rw [hfields]

/-- A leader that leaves no room for anything else is a record without fields. -/
example : (parse (Utf8.encode "00024nam a2200024   4500")).isOk = true := by decide

end Marc21.Iso2709
