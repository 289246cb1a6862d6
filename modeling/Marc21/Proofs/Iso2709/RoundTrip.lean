import Mathlib.Data.List.Chain
import Mathlib.Data.List.Forall2
import Marc21.Format.Writer
import Marc21.Proofs.Record.Invariant
import Marc21.Proofs.Stream.Sink
import Marc21.Proofs.Iso2709.Split
import Marc21.Proofs.Iso2709.Reading

/-!
Records that are written in binary form are read back. The parts of a record are grouped into one record
again (`grouped_parts`), because each part starts with the control number and because a stable sort does
not tell whether its input was sorted part by part.
-/

namespace Marc21

/-- A record that can be written and told apart from its parts: its contents fit, and its control number
occurs once. -/
structure Record.Storable (r : Record) : Prop where
  valid : r.isValid = true
  fields : ∀ f ∈ r.fields, f.Storable
  single : (r.fields.filter (·.tag = Tag.controlNumber)).length = 1
  leader : r.leader.Encodable

/-- What reading gives for a record that was written. -/
structure ReadBack (r s : Record) : Prop where
  fields : s.fields = sortFields r.fields
  leader : { s.leader with
    recordLength := r.leader.recordLength, baseAddress := r.leader.baseAddress } = r.leader
  size : s.size = 26 + (s.fields.map fun f => 12 + f.contents.utf8ByteSize + 1).sum

/-- The control number of a storable record comes first and is the only one. -/
theorem Record.Storable.fields_eq {r : Record} (h : r.Storable) : ∃ first fs, r.fields = first :: fs ∧
    first.tag = Tag.controlNumber ∧ ∀ f ∈ fs, f.tag ≠ Tag.controlNumber := by
  have hsome : r.controlNumber?.isSome = true := by
    have hflaw := Option.isNone_iff_eq_none.1 h.valid
    unfold flaw? at hflaw
    split at hflaw
    · cases hflaw
    · next hcn => exact Option.isSome_iff_ne_none.2 (by simpa using hcn)
  unfold controlNumber? at hsome
  split at hsome
  · next first fs hr =>
    split at hsome
    · next htag =>
      refine ⟨first, fs, hr, htag, ?_⟩
      have hsingle := h.single
      rw [hr, List.filter_cons_of_pos (by simp [htag]), List.length_cons] at hsingle
      have hnil := List.length_eq_zero_iff.1 (Nat.succ.inj hsingle)
      intro f hf hftag
      have := List.filter_eq_nil_iff.1 hnil f hf
      simp [hftag] at this
    · cases hsome
  · cases hsome

namespace Iso2709

/-! ## Parts on a stream -/

/-- A record of fields that came one after the other, in record order. -/
def joined (l : Leader) (fs : List Field) : Record := (Record.ofParts l fs).sorted

/-- The record that a part is read as. -/
def physical (l : Leader) (p : Part) : Record := joined (physicalLeader l p.fields) p.fields

/-- A written part opens with its own length. -/
theorem recordLength?_encode (l : Leader) {p : Part} (hp : p.Sound)
    (hfs : ∀ f ∈ p.fields, f.contents.utf8ByteSize ≤ contentsLimit) :
    Reader.recordLength? ((p.encode l).take 5) = some (p.encode l).length := by
  have hlt : exactSize p.fields < 99999 := hp.size_eq ▸ hp.size_lt
  have hle : 26 ≤ exactSize p.fields := Nat.le_add_right 26 _
  have hfirst : (p.encode l).take 5 = Decimal.digits 5 (exactSize p.fields) := by
    rw [Part.encode, hp.size_eq]
    rfl
  rw [hfirst, Reader.recordLength?, Decimal.value?_digits_of_lt 5 (Nat.lt_succ_of_lt hlt),
    Part.length_encode hp hfs l, hp.size_eq]
  simp [hle]

theorem whole_encode {l : Leader} {p : Part} (hl : l.Encodable) (hp : p.Sound)
    (hfields : ∀ f ∈ p.fields, f.Storable) : Whole (p.encode l) (physical l p) := by
  have hlt : exactSize p.fields < 99999 := hp.size_eq ▸ hp.size_lt
  refine ⟨recordLength?_encode l hp fun f hf => (hfields f hf).length_le, ?_⟩
  rw [Part.encode, hp.size_eq]
  exact parse_encode hl hfields (Nat.le_of_lt hlt)

theorem holds_parts {l : Leader} {ps : List Part} (hl : l.Encodable) (hps : ∀ p ∈ ps, p.Sound)
    (hfields : ∀ p ∈ ps, ∀ f ∈ p.fields, f.Storable) :
    Holds (ps.map fun p => p.encode l).flatten (ps.map (physical l)) := by
  induction ps with
  | nil => exact .nil
  | cons p ps ih =>
    obtain ⟨hp, hps⟩ := List.forall_mem_cons.1 hps
    obtain ⟨hpfields, hfields⟩ := List.forall_mem_cons.1 hfields
    exact .cons (whole_encode hl hp hpfields) (ih hps hfields)

/-! ## Grouping the parts of a record -/

section

variable {l : Leader} {first : Field} {fs : List Field}

theorem controlNumber?_joined (h : first.tag = Tag.controlNumber) :
    (joined l (first :: fs)).controlNumber? = some first.contents := by
  have hle : ∀ g ∈ fs, first.rank ≤ g.rank := by
    intro g _
    rw [rank_eq_zero_iff.2 h]
    exact Nat.zero_le _
  simp only [joined, Record.sorted, Record.ofParts, Record.controlNumber?, sortFields_cons hle, if_pos h]

/-- The copy of the control number is dropped, and the other fields go behind those of their tag. -/
theorem merge_joined {m : Leader} {gs : List Field} (h : first.tag = Tag.controlNumber)
    (hgs : ∀ g ∈ gs, g.tag ≠ Tag.controlNumber) :
    (joined l (first :: fs)).merge (joined m (first :: gs)) = joined l (first :: fs ++ gs) := by
  have hkept : (first :: gs).filter (·.tag ≠ Tag.controlNumber) = gs := by
    rw [List.filter_cons_of_neg (by simp [h]), List.filter_eq_self]
    intro g hg
    exact decide_eq_true (hgs g hg)
  have hwanted : (joined m (first :: gs)).fields.filter (·.tag ≠ Tag.controlNumber) = sortFields gs := by
    rw [joined, Record.sorted, Record.ofParts, filter_sortFields, hkept]
  have hmerge : (joined l (first :: fs)).merge (joined m (first :: gs)) =
      ((joined l (first :: fs)).appendAll (sortFields gs)).sorted := by
    rw [Record.merge, controlNumber?_joined h, Option.isSome_some, if_pos rfl, hwanted]
  rw [hmerge]
  simp only [joined, Record.appendAll, Record.sorted, Record.ofParts, sortFields_append_left,
    sortFields_append_right, totalSize_sortFields, exactSize, totalSize_append, Nat.add_assoc]

theorem continues_joined {m : Leader} {gs : List Field} (h : first.tag = Tag.controlNumber) :
    continues (joined l (first :: fs)) (joined m (first :: gs)) = true := by
  rw [continues, controlNumber?_joined h, controlNumber?_joined h]
  exact beq_self_eq_true first.contents

/-- Parts that carry a record on are merged into it one after the other. -/
theorem grouped_carries {m : Leader} {done : List Field} {ps : List Part} (h : Carries first fs ps)
    (htag : first.tag = Tag.controlNumber) (hfs : ∀ f ∈ fs, f.tag ≠ Tag.controlNumber)
    (rest : List Record) : grouped (some (joined m (first :: done))) (ps.map (physical l) ++ rest) =
      grouped (some (joined m (first :: done ++ fs))) rest := by
  induction h generalizing done with
  | done => rw [List.map_nil, List.nil_append, List.append_nil]
  | @part f taken left p ps fields sound full later ih =>
    have htaken : ∀ g ∈ f :: taken, g.tag ≠ Tag.controlNumber := fun g hg =>
      hfs g (List.mem_append_left left hg)
    have hleft : ∀ g ∈ left, g.tag ≠ Tag.controlNumber := fun g hg =>
      hfs g (List.mem_append_right (f :: taken) hg)
    rw [List.map_cons, List.cons_append, grouped, physical, fields, if_pos (continues_joined htag),
      merge_joined htag htaken, List.cons_append, ih hleft, ← List.cons_append, List.append_assoc]

/-- The leader of a record's first part. -/
def firstLeader (r : Record) : Leader := physicalLeader r.leader ((ownFields (parts r.fields)).headD [])

/-- What reading makes of a record that was written. -/
def readBack (r : Record) : Record := joined (firstLeader r) r.fields

end

/-! ## Grouping a stream of records -/

section

variable {r : Record}

theorem parts_divides_of_storable (h : r.Storable) : Divides r.fields (parts r.fields) :=
  parts_divides fun f hf => size_le_of_length_le (h.fields f hf).length_le

/-- The parts of a record make up the record again. -/
theorem grouped_parts (h : r.Storable) (rest : List Record) :
    grouped none ((parts r.fields).map (physical r.leader) ++ rest) =
      grouped (some (readBack r)) rest := by
  obtain ⟨first, fs, hfields, htag, hfs⟩ := h.fields_eq
  have hdivides := parts_divides_of_storable h
  rw [readBack, firstLeader]
  generalize parts r.fields = ps at hdivides ⊢
  rw [hfields] at hdivides ⊢
  cases hdivides with
  | @parts _ taken left p ps fields sound full later =>
    have hleft : ∀ f ∈ left, f.tag ≠ Tag.controlNumber := fun f hf =>
      hfs f (List.mem_append_right taken hf)
    rw [List.map_cons, List.cons_append, grouped, physical, fields, grouped_carries later htag hleft,
      ownFields, List.headD_cons, fields]
    rfl

theorem controlNumber?_of_fields {first : Field} {fs : List Field} (hfields : r.fields = first :: fs)
    (htag : first.tag = Tag.controlNumber) : r.controlNumber? = some first.contents := by
  simp only [Record.controlNumber?, hfields, if_pos htag]

/-- The first part of a record has its control number, and so has what is read back. -/
theorem physical_head (h : r.Storable) : ∃ q qs,
    (parts r.fields).map (physical r.leader) = q :: qs ∧ q.controlNumber? = r.controlNumber? := by
  obtain ⟨first, fs, hfields, htag, hfs⟩ := h.fields_eq
  have hdivides := parts_divides_of_storable h
  rw [controlNumber?_of_fields hfields htag]
  generalize parts r.fields = ps at hdivides ⊢
  rw [hfields] at hdivides
  cases hdivides with
  | @parts _ taken left p ps fields sound full later =>
    refine ⟨physical r.leader p, ps.map (physical r.leader), rfl, ?_⟩
    rw [physical, fields, controlNumber?_joined htag]

theorem controlNumber?_readBack (h : r.Storable) :
    (readBack r).controlNumber? = r.controlNumber? := by
  obtain ⟨first, fs, hfields, htag, _⟩ := h.fields_eq
  rw [controlNumber?_of_fields hfields htag, readBack, hfields, controlNumber?_joined htag]

end

theorem not_continues {r s : Record} (h : r.controlNumber? ≠ s.controlNumber?) :
    continues r s ≠ true := by
  intro hcont
  unfold continues at hcont
  split at hcont
  · next a b ha hb =>
    rw [ha, hb, eq_of_beq hcont] at h
    exact h rfl
  · cases hcont

/-- The physical records of a list of records, in the order in which they are written. -/
def physicals (rs : List Record) : List Record :=
  rs.flatMap fun r => (parts r.fields).map (physical r.leader)

theorem grouped_physicals_behind {r : Record} {rs : List Record} (hr : r.Storable)
    (hrs : ∀ s ∈ rs, s.Storable)
    (hdiffer : (r :: rs).IsChain fun r s => r.controlNumber? ≠ s.controlNumber?) :
    grouped (some (readBack r)) (physicals rs) = readBack r :: rs.map readBack := by
  induction rs generalizing r with
  | nil => rfl
  | cons s rs ih =>
    obtain ⟨hs, hrs⟩ := List.forall_mem_cons.1 hrs
    obtain ⟨hne, hdiffer⟩ := List.isChain_cons_cons.1 hdiffer
    obtain ⟨q, qs, hq, hcn⟩ := physical_head hs
    have hparts := grouped_parts hs (physicals rs)
    rw [hq] at hparts
    have hstop : continues (readBack r) q ≠ true := by
      apply not_continues
      rw [controlNumber?_readBack hr, hcn]
      exact hne
    rw [physicals, List.flatMap_cons, hq, List.cons_append, grouped, if_neg hstop]
    rw [List.cons_append, grouped] at hparts
    rw [← physicals, hparts, ih hs hrs hdiffer, List.map_cons]

theorem grouped_physicals {rs : List Record} (hrs : ∀ r ∈ rs, r.Storable)
    (hdiffer : rs.IsChain fun r s => r.controlNumber? ≠ s.controlNumber?) :
    grouped none (physicals rs) = rs.map readBack := by
  cases rs with
  | nil => rfl
  | cons r rs =>
    obtain ⟨hr, hrs⟩ := List.forall_mem_cons.1 hrs
    rw [physicals, List.flatMap_cons, grouped_parts hr, ← physicals,
      grouped_physicals_behind hr hrs hdiffer, List.map_cons]

/-! ## Writing -/

theorem encoded_of_isValid {r : Record} (hvalid : r.isValid = true)
    (hlengths : ∀ f ∈ r.fields, f.contents.utf8ByteSize ≤ contentsLimit) :
    Writer.encoded r = .ok ((parts r.fields).map fun p => p.encode r.leader) := by
  have hflaw : r.flaw? = none := Option.isNone_iff_eq_none.1 hvalid
  have hfind : (r.fields.find? fun f => contentsLimit < f.contents.utf8ByteSize) = none := by
    rw [List.find?_eq_none]
    intro f hf
    exact fun hlt => Nat.not_lt.2 (hlengths f hf) (of_decide_eq_true hlt)
  simp only [Writer.encoded, hflaw, split, hfind]

theorem encoded_eq {r : Record} (h : r.Storable) :
    Writer.encoded r = .ok ((parts r.fields).map fun p => p.encode r.leader) :=
  encoded_of_isValid h.valid fun f hf => (h.fields f hf).length_le

theorem holds_record {r : Record} (h : r.Storable) :
    Holds ((parts r.fields).map fun p => p.encode r.leader).flatten
      ((parts r.fields).map (physical r.leader)) := by
  have hdivides := parts_divides_of_storable h
  exact holds_parts h.leader hdivides.sound fun p hp f hf =>
    h.fields f (hdivides.mem_fields p hp f hf)

section

variable {σ : Type} [ByteSink σ]

theorem write_spec (k : Reliable σ) {w : Writer σ} (hw : w.finished = false) (hs : k.sound w.sink)
    {r : Record} {chunks : List Bytes} (h : Writer.encoded r = .ok chunks) :
    ∃ sink notices, w.write r =
        ⟨.ok (), { w with sink, recordsWritten := w.recordsWritten + 1 }, notices⟩ ∧
      k.sound sink ∧ k.taken sink = k.taken w.sink ++ chunks.flatten := by
  obtain ⟨sink, hall, hsink, htaken⟩ := k.writeAll_spec chunks hs
  have hwrite : w.write r = ⟨.ok (), { w with sink, recordsWritten := w.recordsWritten + 1 },
      r.validityNotices ++ if chunks.length ≤ 1 then []
        else [.recordSplit (r.controlNumber?.getD "") chunks.length]⟩ := by
    simp only [Writer.write, hw, h, hall]
    rfl
  exact ⟨sink, _, hwrite, hsink, htaken⟩

/-- What a batch of records leaves on a sink holds their physical records. -/
theorem writeBatch_spec (k : Reliable σ) {w : Writer σ} (hw : w.finished = false)
    (hs : k.sound w.sink) {rs : List Record} (hrs : ∀ r ∈ rs, r.Storable) :
    ((RecordWriter.binary w).writeBatch rs).result = .ok () ∧
      ∃ bs, k.taken ((RecordWriter.binary w).writeBatch rs).state.sink = k.taken w.sink ++ bs ∧
        Holds bs (physicals rs) := by
  induction rs generalizing w with
  | nil => exact ⟨rfl, [], (List.append_nil _).symm, .nil⟩
  | cons r rs ih =>
    obtain ⟨hr, hrs⟩ := List.forall_mem_cons.1 hrs
    obtain ⟨sink, notices, hwrite, hsink, htaken⟩ := write_spec k hw hs (encoded_eq hr)
    obtain ⟨hresult, bs, hbs, hholds⟩ :=
      ih (w := { w with sink, recordsWritten := w.recordsWritten + 1 }) hw hsink hrs
    have hbatch : (RecordWriter.binary w).write r =
        ⟨.ok (), .binary { w with sink, recordsWritten := w.recordsWritten + 1 }, notices⟩ := by
      rw [RecordWriter.write, hwrite]
      rfl
    rw [RecordWriter.writeBatch, hbatch]
    refine ⟨hresult, _, ?_, (holds_record hr).append hholds⟩
    dsimp only
    rw [hbs, htaken, List.append_assoc]

/-! ## Main result -/

theorem readBack_spec (r : Record) : ReadBack r (readBack r) where
  fields := rfl
  leader := rfl
  size := (Record.wellFormed_sorted_ofParts _ _).size_eq.trans (exactSize_eq_sum _)

/-- **Binary round trip.** Records that are written to a sink that does not fail are read back from a
stream of the bytes, however that delivers them: one for each that was written, in order, whatever the
number of parts it was written in. -/
theorem readAll_writeBatch (k : Reliable σ) {sink : σ} (hsink : k.sound sink) {rs : List Record}
    (hrs : ∀ r ∈ rs, r.Storable)
    (hdiffer : rs.IsChain fun r s => r.controlNumber? ≠ s.controlNumber?) :
    let written := (RecordWriter.ofFormat .binary sink none).writeBatch rs
    written.result = .ok () ∧ ∃ bs, k.taken written.state.sink = k.taken sink ++ bs ∧
      ∀ source : Source, source.Steady → source.upcoming = bs →
        ∃ out, (RecordReader.binary (.ofSource source)).readAll.result = .ok out ∧
          List.Forall₂ ReadBack rs out := by
  obtain ⟨hresult, bs, hbs, hholds⟩ := writeBatch_spec k (w := Writer.ofSink sink) rfl hsink hrs
  refine ⟨hresult, bs, hbs, ?_⟩
  rintro source hsource rfl
  refine ⟨rs.map readBack, ?_, ?_⟩
  · have hgives := Reader.gives_grouped (r := .ofSource source) ⟨hsource, hholds⟩
    have hheld : (Reader.ofSource source).held? = none := rfl
    rw [hheld, grouped_physicals hrs hdiffer] at hgives
    exact RecordReader.readAll_of_gives hgives
  · rw [List.forall₂_map_right_iff]
    exact List.forall₂_same.2 fun r _ => readBack_spec r

end

/-- A record of a control number and a title. -/
def titled (controlNumber title : String) : Record :=
  Record.ofParts (Leader.fresh .languageMaterial .monographOrItem)
    [⟨Tag.controlNumber, controlNumber⟩, ⟨Tag.titleStatement, title⟩]

theorem storable_titled {controlNumber title : String}
    (h : (titled controlNumber title).isValid = true ∧ ∀ f ∈ (titled controlNumber title).fields,
      f.contents.utf8ByteSize ≤ 9998 ∧ fieldTerminator ∉ Utf8.encode f.contents) :
    (titled controlNumber title).Storable :=
  ⟨h.1, fun f hf => ⟨(h.2 f hf).1, (h.2 f hf).2⟩, rfl, Leader.encodable_fresh _ _⟩

/-- Two records on a sink in memory, read back from a stream that gives everything at once. -/
theorem readAll_writeBatch_titled :
    let rs := [titled "1" "10\x1FaA", titled "2" "  \x1FaB\x1Fb"]
    let written := (RecordWriter.ofFormat .binary BoundedSink.unbounded none).writeBatch rs
    written.result = .ok () ∧ ∃ out,
      (RecordReader.binary (.ofSource (.ofBytes written.state.sink.accepted.toList))).readAll.result =
        .ok out ∧ List.Forall₂ ReadBack rs out := by
  have hrs : ∀ r ∈ [titled "1" "10\x1FaA", titled "2" "  \x1FaB\x1Fb"], r.Storable := by
    intro r hr
    simp only [List.mem_cons, List.not_mem_nil, or_false] at hr
    rcases hr with rfl | rfl
    all_goals exact storable_titled (by decide)
  have hdiffer : [titled "1" "10\x1FaA", titled "2" "  \x1FaB\x1Fb"].IsChain
      fun r s => r.controlNumber? ≠ s.controlNumber? := by
    rw [List.isChain_pair]
    decide
  obtain ⟨hresult, bs, hbs, hread⟩ :=
    readAll_writeBatch BoundedSink.reliable BoundedSink.sound_unbounded hrs hdiffer
  rw [BoundedSink.taken_unbounded, List.nil_append] at hbs
  refine ⟨hresult, ?_⟩
  rw [← hbs] at hread
  exact hread _ (Source.steady_ofBytes _) (Source.upcoming_ofBytes _)

end Iso2709

end Marc21
