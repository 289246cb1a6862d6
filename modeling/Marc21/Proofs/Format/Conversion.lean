import Marc21.Proofs.Iso2709.Rewriting
import Marc21.Proofs.Slim.Stability

/-!
Binary records written as a document. The records that a binary reader gives are in record order and their
leaders can be written, but record order is by the bytes of the tag, and the grammar wants all control fields
first. So the document can be read exactly if no record holds a data field that comes in front of a control
field (`readAll_converted_iff`).
-/

namespace Marc21

/-! ## What a binary reader gives -/

theorem Iso2709.Reader.received_of_gives {r : Reader} {out : List Record}
    (h : RecordReader.Gives (.binary r) out) (hr : r.grouping.Sound) :
    ∀ record ∈ out, record.Received := by
  generalize hreader : RecordReader.binary r = reader at h
  induction h generalizing r with
  | done h => simp
  | record hread rest ih =>
    subst hreader
    have hsound := read_sound hr
    exact List.forall_mem_cons.2 ⟨hsound.2 _ hread, ih hsound.1 rfl⟩

/-- In records from any source, control fields come first exactly if no two fields are crossed. -/
theorem Origin.controlFirst_iff {r : Record} (h : Origin r) :
    ControlFirst r.fields ↔ ∀ f ∈ r.fields, ∀ g ∈ r.fields, ¬Crossed f g :=
  Marc21.controlFirst_iff h.wellFormed.ordered

/-! ## Main result -/

/-- **What was read in binary form and written as a document can be read exactly if no control field is
crossed with a data field**, and then there are as many records. Wherever a record comes from, its control
fields come first on the same condition. -/
theorem readAll_converted_iff {source : Source} {rs : List Record}
    (hread : (RecordReader.binary (.ofSource source)).readAll.result = .ok rs) {σ : Type} [ByteSink σ]
    (k : Reliable σ) {sink : σ} (hsink : k.sound sink) (calls : List Slim.Call)
    (hcalls : calls.filterMap Slim.Call.record? = rs) (closing : Slim.Closing) :
    let written := (Slim.Writer.ofSink sink).session calls closing
    written.1 = .ok () ∧
      (∃ bs, k.taken written.2 = k.taken sink ++ bs ∧ ∀ supply seekFailure,
        let again := (RecordReader.xml (.ofInput ⟨bs, supply, none, seekFailure⟩)).readAll.result
        ((∃ out, again = .ok out) ↔ ∀ r ∈ rs, ∀ f ∈ r.fields, ∀ g ∈ r.fields, ¬Crossed f g) ∧
          ∀ out, again = .ok out → out.length = rs.length) ∧
      ∀ r, Origin r → (ControlFirst r.fields ↔ ∀ f ∈ r.fields, ∀ g ∈ r.fields, ¬Crossed f g) := by
  have hreceived : ∀ r ∈ rs, r.Received :=
    Iso2709.Reader.received_of_gives (RecordReader.gives_of_readAll hread) Iso2709.Grouping.sound_empty
  obtain ⟨hresult, bs, hbs, hagain⟩ :=
    Slim.readAll_session_iff k hsink calls hcalls (fun r hr => (hreceived r hr).fits) closing
  refine ⟨hresult, ⟨bs, hbs, fun supply seekFailure => ⟨?_, ?_⟩⟩, fun r hr => hr.controlFirst_iff⟩
  · simp only [hagain, exists_and_left, exists_eq, and_true]
    exact forall₂_congr fun r hr => controlFirst_iff (hreceived r hr).wellFormed.ordered
  · intro out hout
    rw [((hagain supply seekFailure out).1 hout).2, List.length_map]

theorem readAll_encodeAll {rs : List Record} (hrs : ∀ r ∈ rs, r.Storable)
    (hdiffer : rs.IsChain fun r s => r.controlNumber? ≠ s.controlNumber?) :
    (RecordReader.binary (.ofSource (.ofBytes (Iso2709.Reader.encodeAll rs)))).readAll.result =
      .ok (rs.map Iso2709.readBack) :=
  Iso2709.readAll_of_upcoming (Source.steady_ofBytes _) hrs hdiffer (Source.upcoming_ofBytes _)

/-- A record that was read in binary form is written as a document without indentation and read from it. -/
theorem readAll_converted_iff_titled :
    let bs := Iso2709.Reader.encodeAll [Iso2709.titled "1" "10\x1FaA"]
    ∃ rs, (RecordReader.binary (.ofSource (.ofBytes bs))).readAll.result = .ok rs ∧
      let written := (Slim.Writer.ofSink BoundedSink.unbounded).session (rs.map .write) .release
      written.1 = .ok () ∧ ∃ out,
        (RecordReader.xml (.ofInput (.ofBytes written.2.accepted.toList))).readAll.result = .ok out ∧
          out.length = rs.length := by
  intro bs
  have hstorable : ∀ r ∈ [Iso2709.titled "1" "10\x1FaA"], r.Storable :=
    List.forall_mem_singleton.2 (Iso2709.storable_titled (by decide))
  have hread := readAll_encodeAll hstorable (List.isChain_singleton _)
  refine ⟨_, hread, ?_⟩
  obtain ⟨hresult, ⟨written, hbs, hagain⟩, _⟩ := readAll_converted_iff hread BoundedSink.reliable
    BoundedSink.sound_unbounded [.write (Iso2709.readBack (Iso2709.titled "1" "10\x1FaA"))] rfl .release
  rw [BoundedSink.taken_unbounded, List.nil_append] at hbs
  subst hbs
  obtain ⟨hiff, hlength⟩ := hagain (.window _) none
  have hnone : ∀ f ∈ (Iso2709.titled "1" "10\x1FaA").fields, ¬f.tag.PrecedesControl := by decide
  obtain ⟨out, hout⟩ := hiff.2 (List.forall_mem_singleton.2 fun f hf g _ hcrossed =>
    hnone f ((sortFields_perm _).mem_iff.1 hf) hcrossed.precedes)
  exact ⟨hresult, out, hout, hlength out hout⟩

/-- Not every stream of binary records makes a document that can be read: a data field with the tag `!23`
comes in front of a control field. -/
theorem readAll_converted_outOfOrder : ¬∀ (bs : Bytes) (rs : List Record),
    (RecordReader.binary (.ofSource (.ofBytes bs))).readAll.result = .ok rs →
      let written := (Slim.Writer.ofSink BoundedSink.unbounded).session (rs.map .write) .finish
      ∃ out, (RecordReader.xml (.ofInput (.ofBytes written.2.accepted.toList))).readAll.result = .ok out ∧
        out.length = rs.length := by
  intro h
  have hstorable : ∀ r ∈ [Slim.outOfOrder], r.Storable := List.forall_mem_singleton.2 ⟨by decide,
    fun f hf => ⟨by revert f; decide, by revert f; decide⟩, by decide, Leader.encodable_fresh _ _⟩
  have hread := readAll_encodeAll hstorable (List.isChain_singleton _)
  obtain ⟨out, hout, _⟩ := h _ _ hread
  have hreceived := Iso2709.Reader.received_of_gives (RecordReader.gives_of_readAll hread)
    Iso2709.Grouping.sound_empty
  obtain ⟨_, bs, hbs, hiff⟩ := Slim.readAll_session_iff BoundedSink.reliable BoundedSink.sound_unbounded
    [.write (Iso2709.readBack Slim.outOfOrder)] rfl (fun r hr => (hreceived r hr).fits) .finish
  rw [BoundedSink.taken_unbounded, List.nil_append] at hbs
  subst hbs
  have hfirst := List.forall_mem_singleton.1 ((hiff (.window _) none _).1 hout).1
  exact Slim.not_controlFirst_outOfOrder (Record.wellFormed_sorted_ofParts _ _).ordered
    (sortFields_perm _) hfirst

end Marc21
