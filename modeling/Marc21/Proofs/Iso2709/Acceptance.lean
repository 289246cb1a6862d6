import Marc21.Proofs.Iso2709.RoundTrip

/-!
What the writer accepts, and what reading then makes of it. The writer looks at the length of the contents
and at the runs of data fields, but not at terminators in the contents nor at the characters of the leader.
So it can write physical records that are refused for their leader or cut fields short, and it does not
exactly if the record has a readable leader and no terminator in it (`write_givesBack_iff`).
-/

namespace Marc21.Iso2709

/-- Bytes that are accepted as one physical record, with these fields in the order of its entries. -/
def GivesBack (bs : Bytes) (fs : List Field) : Prop :=
  ∃ l, parse bs = .ok (Record.ofParts l fs).sorted ∧ parseFields l bs = .ok fs

/-! ## What was written -/

theorem split_eq_ok {r : Record} {chunks : List Bytes} (h : split r = .ok chunks) :
    (∀ f ∈ r.fields, f.contents.utf8ByteSize ≤ contentsLimit) ∧
      chunks = (parts r.fields).map fun p => p.encode r.leader := by
  unfold split at h
  split at h
  · cases h
  · next hnone =>
    refine ⟨fun f hf => ?_, (Except.ok.inj h).symm⟩
    exact Nat.not_lt.1 (by simpa using List.find?_eq_none.1 hnone f hf)

theorem Writer.encoded_eq_ok {r : Record} {chunks : List Bytes} (h : Writer.encoded r = .ok chunks) :
    r.isValid = true ∧ split r = .ok chunks := by
  unfold encoded at h
  split at h
  · cases h
  · next hflaw => exact ⟨Option.isNone_iff_eq_none.2 hflaw, h⟩

/-- A record that was accepted was split, and the sink took all its parts. -/
theorem Writer.write_eq_ok {σ : Type} [ByteSink σ] {w : Writer σ} {r : Record}
    (h : (w.write r).result = .ok ()) : ∃ chunks, Writer.encoded r = .ok chunks ∧
      ByteSink.writeAll w.sink chunks = (.ok (), (w.write r).state.sink) := by
  cases hfinished : w.finished with
  | true =>
    rw [write, if_pos hfinished] at h
    cases h
  | false =>
    cases hencoded : encoded r with
    | error e =>
      simp only [write, hfinished, hencoded] at h
      cases h
    | ok chunks =>
      refine ⟨chunks, rfl, ?_⟩
      rcases hall : ByteSink.writeAll w.sink chunks with ⟨result, sink⟩
      cases result with
      | error failure =>
        simp only [write, hfinished, hencoded, hall] at h
        cases h
      | ok =>
        simp only [write, hfinished, hencoded, hall]
        rfl

/-- A sink without a bound takes what can be encoded. -/
theorem Writer.write_unbounded_iff {r : Record} :
    ((Writer.ofSink BoundedSink.unbounded).write r).result = .ok () ↔
      ∃ chunks, Writer.encoded r = .ok chunks := by
  constructor
  · intro h
    obtain ⟨chunks, hr, _⟩ := Writer.write_eq_ok h
    exact ⟨chunks, hr⟩
  · rintro ⟨chunks, hr⟩
    obtain ⟨sink, notices, hwrite, _⟩ := Iso2709.write_spec BoundedSink.reliable
      (w := Writer.ofSink BoundedSink.unbounded) rfl BoundedSink.sound_unbounded hr
    rw [hwrite]

/-- Every field of a record lies in one of its parts. -/
theorem Divides.exists_mem {fs : List Field} {ps : List Part} (h : Divides fs ps) {f : Field}
    (hf : f ∈ fs) : ∃ p ∈ ps, f ∈ p.fields := by
  rw [← h.flatten] at hf
  obtain ⟨own, hown, hf⟩ := List.mem_flatten.1 hf
  cases ps with
  | nil => cases hown
  | cons p ps =>
    rcases List.mem_cons.1 hown with rfl | hown
    · exact ⟨p, List.mem_cons_self, hf⟩
    · obtain ⟨q, hq, rfl⟩ := List.mem_map.1 hown
      exact ⟨q, List.mem_cons_of_mem p hq, List.mem_of_mem_tail hf⟩

/-! ## What a part gives back -/

section

variable {l : Leader} {p : Part}

/-- A part with a readable leader is accepted and gives its fields up to their terminators. -/
theorem givesBack_cut (hp : p.Sound) (hfs : ∀ f ∈ p.fields, f.contents.utf8ByteSize ≤ contentsLimit)
    (hl : ∃ m, Leader.ofBytes l.bytes = .ok m) : GivesBack (p.encode l) (p.fields.map Field.cut) := by
  have hsize : exactSize p.fields ≤ 99999 := Nat.le_of_lt (hp.size_eq ▸ hp.size_lt)
  rw [Part.encode, hp.size_eq]
  exact ⟨_, parse_encode_cut (Leader.exists_ofBytes_bytes.1 hl) hfs hsize,
    parseFields_encode hfs hsize rfl rfl⟩

theorem exists_of_givesBack (hp : p.Sound) {fs : List Field} (h : GivesBack (p.encode l) fs) :
    ∃ m, Leader.ofBytes l.bytes = .ok m := by
  obtain ⟨m, hparse, _⟩ := h
  have hsize : exactSize p.fields ≤ 99999 := Nat.le_of_lt (hp.size_eq ▸ hp.size_lt)
  rw [Leader.exists_ofBytes_bytes, ← Leader.all_chars_ascii_iff]
  by_contra hascii
  have hleader := ofBytes_encode l hsize
  rw [if_neg hascii] at hleader
  rw [Part.encode, hp.size_eq, parse, parseLeader, hleader] at hparse
  cases hparse

/-- What a part gives back is determined. -/
theorem givesBack_unique {bs : Bytes} {fs gs : List Field} (hf : GivesBack bs fs)
    (hg : GivesBack bs gs) : fs = gs := by
  obtain ⟨l, hparse, hfields⟩ := hf
  obtain ⟨m, hparse', hfields'⟩ := hg
  have hleader : l = m := congrArg Record.leader (Except.ok.inj (hparse.symm.trans hparse'))
  rw [hleader] at hfields
  exact Except.ok.inj (hfields.symm.trans hfields')

/-- A part gives its fields back exactly if its leader is readable and no terminator is in them. -/
theorem givesBack_encode_iff (hp : p.Sound)
    (hfs : ∀ f ∈ p.fields, f.contents.utf8ByteSize ≤ contentsLimit) :
    GivesBack (p.encode l) p.fields ↔ (∃ m, Leader.ofBytes l.bytes = .ok m) ∧
      ∀ f ∈ p.fields, fieldTerminator ∉ Utf8.encode f.contents := by
  constructor
  · intro h
    have hl := exists_of_givesBack hp h
    refine ⟨hl, fun f hf => ?_⟩
    have hcut : p.fields.map Field.cut = p.fields := givesBack_unique (givesBack_cut hp hfs hl) h
    rw [← cut_eq_self_iff]
    exact List.map_inj_left.1 (hcut.trans (List.map_id' p.fields).symm) f hf
  · rintro ⟨hl, hclean⟩
    have hcut : p.fields.map Field.cut = p.fields := by
      rw [List.map_congr_left fun f hf => cut_eq_self_iff.2 (hclean f hf), List.map_id']
    exact hcut ▸ givesBack_cut hp hfs hl

end

/-! ## Main result -/

/-- **What the writer accepts is given back exactly if the format can carry it.** An accepted record is
written as parts that carry all its fields, and the parts give back the contents that their entries were
written for if and only if the leader can be read and no terminator is embedded. With a readable leader
they are accepted in any case, and each field comes back up to its first terminator. -/
theorem write_givesBack_iff {σ : Type} [ByteSink σ] {w : Writer σ} {r : Record}
    (h : (w.write r).result = .ok ()) :
    let chunk (p : Part) := p.encode r.leader
    ByteSink.writeAll w.sink ((parts r.fields).map chunk) = (.ok (), (w.write r).state.sink) ∧
      (ownFields (parts r.fields)).flatten = r.fields ∧
      (∀ p ∈ (parts r.fields).tail, p.fields.head? = r.fields.head?) ∧
      ((∀ p ∈ parts r.fields, GivesBack (chunk p) p.fields) ↔
        (∃ l, Leader.ofBytes r.leader.bytes = .ok l) ∧
          ∀ f ∈ r.fields, fieldTerminator ∉ Utf8.encode f.contents) ∧
      ((∃ l, Leader.ofBytes r.leader.bytes = .ok l) →
        ∀ p ∈ parts r.fields, GivesBack (chunk p) (p.fields.map Field.cut)) := by
  obtain ⟨chunks, hencoded, hall⟩ := Writer.write_eq_ok h
  obtain ⟨hlengths, hchunks⟩ := split_eq_ok (Writer.encoded_eq_ok hencoded).2
  have hdivides := parts_divides fun f hf => size_le_of_length_le (hlengths f hf)
  have hfs (p : Part) (hp : p ∈ parts r.fields) :
      ∀ f ∈ p.fields, f.contents.utf8ByteSize ≤ contentsLimit :=
    fun f hf => hlengths f (hdivides.mem_fields p hp f hf)
  have hiff (p : Part) (hp : p ∈ parts r.fields) :=
    givesBack_encode_iff (l := r.leader) (hdivides.sound p hp) (hfs p hp)
  refine ⟨hchunks ▸ hall, hdivides.flatten, hdivides.head?_eq, ⟨?_, ?_⟩, ?_⟩
  · intro hback
    obtain ⟨p, hp⟩ := List.exists_mem_of_length_pos hdivides.length_le.1
    refine ⟨((hiff p hp).1 (hback p hp)).1, fun f hf => ?_⟩
    obtain ⟨q, hq, hfq⟩ := hdivides.exists_mem hf
    exact ((hiff q hq).1 (hback q hq)).2 f hfq
  · rintro ⟨hl, hclean⟩ p hp
    exact (hiff p hp).2 ⟨hl, fun f hf => hclean f (hdivides.mem_fields p hp f hf)⟩
  · exact fun hl p hp => givesBack_cut (hdivides.sound p hp) (hfs p hp) hl

private theorem write_unbounded {r : Record} (hvalid : r.isValid = true)
    (hlengths : ∀ f ∈ r.fields, f.contents.utf8ByteSize ≤ contentsLimit) :
    ((Writer.ofSink BoundedSink.unbounded).write r).result = .ok () :=
  Writer.write_unbounded_iff.2 ⟨_, encoded_of_isValid hvalid hlengths⟩

/-- A title without a terminator in it is given back. -/
theorem write_givesBack_iff_titled :
    let r := titled "1" "10\x1FaA"
    ((Writer.ofSink BoundedSink.unbounded).write r).result = .ok () ∧
      ∀ p ∈ parts r.fields, GivesBack (p.encode r.leader) p.fields := by
  have hwrite := write_unbounded (r := titled "1" "10\x1FaA") (by decide) (by decide)
  have hleader : ∃ l, Leader.ofBytes (titled "1" "10\x1FaA").leader.bytes = .ok l :=
    Leader.exists_ofBytes_bytes.2 fun c hc =>
      Leader.lowByte_lt ((Leader.encodable_fresh _ _).ascii c hc)
  obtain ⟨_, _, _, hiff, _⟩ := write_givesBack_iff hwrite
  exact ⟨hwrite, hiff.2 ⟨hleader, by decide⟩⟩

/-- Not every accepted record is given back: the writer takes a terminator in a field, and reading cuts
the field off there. -/
theorem write_accepts_terminator : ¬∀ r : Record,
    ((Writer.ofSink BoundedSink.unbounded).write r).result = .ok () →
      ∀ p ∈ parts r.fields, GivesBack (p.encode r.leader) p.fields := by
  intro h
  have hlengths : ∀ f ∈ (titled "1" "  \x1Fax\x1Ey").fields,
      f.contents.utf8ByteSize ≤ contentsLimit := by
    decide
  have hback := h _ (write_unbounded (by decide) hlengths)
  have hdivides := parts_divides fun f hf => size_le_of_length_le (hlengths f hf)
  obtain ⟨p, hp, hmem⟩ :=
    hdivides.exists_mem (f := ⟨Tag.titleStatement, "  \x1Fax\x1Ey"⟩) (by decide)
  have hclean := ((givesBack_encode_iff (hdivides.sound p hp) fun f hf =>
    hlengths f (hdivides.mem_fields p hp f hf)).1 (hback p hp)).2 _ hmem
  exact hclean (by decide)

end Marc21.Iso2709
