import Marc21.Proofs.Record.Origin
import Marc21.Proofs.Slim.Documents
import Marc21.Proofs.Slim.RoundTrip

/-!
Writing what was read from a document, and reading it again. A reader takes an element for what its name
says, but a writer goes by the tag of a field, and record order may put data fields in front of control
fields. So the records come back exactly if each field is one that elements can express and none is out of
turn (`readAll_again_iff`), which holds of documents whose elements fit their tags (`Document.Plain`).
-/

namespace Marc21.Slim

open Xml (EventStream)

/-! ## What a document gives -/

theorem fits_leaderAt {text : String} (h : LeaderText text) : (leaderAt text).Fits := by
  have hread : leaderOfText text = .ok (leaderAt text) := leaderOfText_eq_ok.2 ⟨h, rfl⟩
  unfold leaderOfText at hread
  dsimp only at hread
  split at hread
  · cases hread
  · cases hbytes : Leader.ofBytes (filled (Utf8.encode text)) with
    | error fault =>
      rw [← filled, hbytes] at hread
      cases hread
    | ok l =>
      rw [← filled, hbytes] at hread
      cases hread
      exact Leader.fits_of_ofBytes hbytes

theorem received_record (e : RecordElement) : e.record.Received :=
  ⟨Record.wellFormed_sorted_ofParts _ _, fits_leaderAt e.leader.usable⟩

/-- What is read to the end is what a tree of elements stands for. -/
theorem exists_document {input : Input} {rs : List Record}
    (h : (RecordReader.xml (.ofInput input)).readAll.result = .ok rs) :
    ∃ document : Document, document.records = rs := by
  have hleft : left? (.xml (.ofInput input)) = some rs := by
    rw [left?, h]
    rfl
  have hapart := EventStream.apart_events
    (EventStream.kept_ofBytes input.bytes input.supply input.broken)
  rw [left?_eq] at hleft
  change leftAfter ((Reader.ofInput input).readFrom _ .root) = some rs at hleft
  rw [leftAfter_readFrom, readRaw?_eq hapart .root fun h => Bool.noConfusion h] at hleft
  obtain ⟨document, hrecords, _⟩ := read?_root.1 hleft
  exact ⟨document, hrecords⟩

theorem received_of_document (document : Document) : ∀ r ∈ document.records, r.Received := by
  intro r hr
  cases document with
  | collection as has elements =>
    obtain ⟨e, _, rfl⟩ := List.mem_map.1 hr
    exact received_record e
  | lone e =>
    rw [List.mem_singleton.1 hr]
    exact received_record e

/-! ## Records that are carried whole -/

theorem tag_of_reread? {f g : Field} (h : f.reread? = some g) : g.tag = f.tag := by
  cases hf : f.isControl with
  | true =>
    rw [Field.reread?, if_pos hf] at h
    split at h
    · cases h
    · rw [← Option.some.inj h]
  | false =>
    rw [Field.reread?_of_data hf] at h
    split at h
    · cases h
    · rw [← Option.some.inj h]
      rfl

theorem ordered_filterMap_reread? {fs : List Field} (h : Ordered fs) :
    Ordered (fs.filterMap Field.reread?) := by
  apply List.Pairwise.filterMap _ _ h
  intro f g hle f' hf' g' hg'
  rw [rank_eq_iff.2 (tag_of_reread? hf'), rank_eq_iff.2 (tag_of_reread? hg')]
  exact hle

/-- A record is carried whole exactly if each of its fields is. -/
theorem reread_eq_self_iff {r : Record} (h : r.WellFormed) :
    reread r = r ↔ ∀ f ∈ r.fields, f.Expressible := by
  have hfields := List.filterMap_eq_map_iff_forall_eq_some (f := Field.reread?) (g := id)
    (l := r.fields)
  rw [List.map_id] at hfields
  simp only [← Field.reread?_eq_some_iff, id_eq] at hfields ⊢
  rw [← hfields]
  constructor
  · intro heq
    have hsorted := congrArg Record.fields heq
    rwa [reread, Record.sorted, Record.ofParts, sortFields_of_ordered (ordered_filterMap_reread? h.ordered)]
      at hsorted
  · intro heq
    rw [reread, heq, Record.sorted, Record.ofParts]
    simp only [sortFields_of_ordered h.ordered, ← h.size_eq]

/-! ## Plain documents -/

/-- Control fields have control tags, and data fields have others that come behind those and nothing in
which a delimiter would be found. -/
structure RecordElement.Plain (e : RecordElement) : Prop where
  controls : ∀ c ∈ e.controls, c.tag.isControl = true
  datas : ∀ d ∈ e.datas, d.tag.isControl = false ∧ ¬d.tag.PrecedesControl
  clean : ∀ d ∈ e.datas, ∀ s ∈ d.values, s.Clean

def Document.Plain : Document → Prop
  | collection _ _ elements => ∀ e ∈ elements, e.Plain
  | lone e => e.Plain

/-- Each field of a record comes from an element that has content. -/
theorem mem_fields_record {e : RecordElement} {f : Field} (h : f ∈ e.record.fields) :
    (∃ c ∈ e.controls, c.content.getD "" ≠ "" ∧ f = ⟨c.tag, c.content.getD ""⟩) ∨
      ∃ d ∈ e.datas, d.values ≠ [] ∧ f = Field.data d.tag d.indicator1 d.indicator2 d.values := by
  have hmem := (sortFields_perm _).mem_iff.1 h
  rw [Record.ofParts, List.mem_append, List.mem_filterMap, List.mem_filterMap] at hmem
  rcases hmem with ⟨c, hc, hfield⟩ | ⟨d, hd, hfield⟩
  · obtain ⟨hne, heq⟩ := Option.ite_none_left_eq_some.1 hfield
    exact .inl ⟨c, hc, hne, (Option.some.inj heq).symm⟩
  · obtain ⟨hne, heq⟩ := Option.ite_none_left_eq_some.1 hfield
    exact .inr ⟨d, hd, hne, (Option.some.inj heq).symm⟩

theorem value_ne_of_mem_values {d : DataElement} {s : Subfield} (h : s ∈ d.values) : s.value ≠ "" := by
  obtain ⟨e, _, he⟩ := List.mem_filterMap.1 h
  obtain ⟨hne, heq⟩ := Option.ite_none_left_eq_some.1 he
  rw [← Option.some.inj heq]
  exact hne

/-- Each field that a plain element stands for can be expressed, and none is crossed with another. -/
theorem expressible_of_plain {e : RecordElement} (he : e.Plain) :
    (∀ f ∈ e.record.fields, f.Expressible) ∧
      ∀ f ∈ e.record.fields, ∀ g ∈ e.record.fields, ¬Crossed f g := by
  constructor
  · intro f hf
    rcases mem_fields_record hf with ⟨c, hc, hne, rfl⟩ | ⟨d, hd, hne, rfl⟩
    · exact .control (he.controls c hc) hne
    · exact .data _ _ (he.datas d hd).1 hne (he.clean d hd) fun s hs => value_ne_of_mem_values hs
  · intro f hf g _ hcrossed
    rcases mem_fields_record hf with ⟨c, hc, _, rfl⟩ | ⟨d, hd, _, rfl⟩
    · exact Bool.false_ne_true (hcrossed.isControl_left.symm.trans (he.controls c hc))
    · exact (he.datas d hd).2 hcrossed.precedes

theorem expressible_of_document {document : Document} (h : document.Plain) :
    ∀ r ∈ document.records, (∀ f ∈ r.fields, f.Expressible) ∧
      ∀ f ∈ r.fields, ∀ g ∈ r.fields, ¬Crossed f g := by
  intro r hr
  cases document with
  | collection as has elements =>
    obtain ⟨e, he, rfl⟩ := List.mem_map.1 hr
    exact expressible_of_plain (h e he)
  | lone e =>
    rw [List.mem_singleton.1 hr]
    exact expressible_of_plain h

/-! ## Main result -/

/-- **What was read from a document and written again is read as the same records exactly if** each field
can be expressed by elements and no control field is crossed with a data field. Both hold of the records of
a plain document. -/
theorem readAll_again_iff {input : Input} {rs : List Record}
    (hread : (RecordReader.xml (.ofInput input)).readAll.result = .ok rs) {σ : Type} [ByteSink σ]
    (k : Reliable σ) {sink : σ} (hsink : k.sound sink) (calls : List Call)
    (hcalls : calls.filterMap Call.record? = rs) (closing : Closing) :
    let written := (Writer.ofSink sink).session calls closing
    let Stable := ∀ r ∈ rs, (∀ f ∈ r.fields, f.Expressible) ∧
      ∀ f ∈ r.fields, ∀ g ∈ r.fields, ¬Crossed f g
    written.1 = .ok () ∧
      (∃ bs, k.taken written.2 = k.taken sink ++ bs ∧ ∀ supply seekFailure,
        (RecordReader.xml (.ofInput ⟨bs, supply, none, seekFailure⟩)).readAll.result = .ok rs ↔
          Stable) ∧
      ∀ document : Document, document.records = rs → document.Plain → Stable := by
  have hreceived : ∀ r ∈ rs, r.Received := by
    obtain ⟨document, rfl⟩ := exists_document hread
    exact received_of_document document
  obtain ⟨hresult, bs, hbs, hagain⟩ :=
    readAll_session_iff k hsink calls hcalls (fun r hr => (hreceived r hr).fits) closing
  refine ⟨hresult, ⟨bs, hbs, fun supply seekFailure => ?_⟩, ?_⟩
  · have hsame : rs.map reread = rs ↔ ∀ r ∈ rs, reread r = r := by
      have hmap := List.map_inj_left (l := rs) (f := reread) (g := id)
      rwa [List.map_id] at hmap
    rw [hagain, eq_comm, hsame]
    constructor
    · rintro ⟨hfirst, heq⟩ r hr
      have hr' := (hreceived r hr).wellFormed
      exact ⟨(reread_eq_self_iff hr').1 (heq r hr), (controlFirst_iff hr'.ordered).1 (hfirst r hr)⟩
    · intro hstable
      constructor
      · intro r hr
        exact (controlFirst_iff (hreceived r hr).wellFormed.ordered).2 (hstable r hr).2
      · intro r hr
        exact (reread_eq_self_iff (hreceived r hr).wellFormed).2 (hstable r hr).1
  · rintro document rfl hplain
    exact expressible_of_document hplain

theorem wellFormed_annotated (controlNumber title : String) :
    (annotated controlNumber title).WellFormed := by
  refine ⟨ordered_cons.2 ⟨fun f _ => ?_, ordered_cons.2 ⟨by simp, ordered_nil⟩⟩, rfl⟩
  rw [rank_eq_zero_iff.2 rfl]
  exact Nat.zero_le _

/-- A record that was read is written with indentation, and read again as it was. -/
theorem readAll_again_iff_annotated :
    let r := annotated "1" "<a> & \"b\""
    let input := Input.ofBytes (Xml.Layout.compact.bytes (document [r]))
    let written := (Writer.ofSink BoundedSink.unbounded).session [.indent 2, .write r] .drop
    (RecordReader.xml (.ofInput input)).readAll.result = .ok [r] ∧ written.1 = .ok () ∧
      (RecordReader.xml (.ofInput (.ofBytes written.2.accepted.toList))).readAll.result = .ok [r] := by
  intro r input
  have hexpressible : r.Expressible := expressible_annotated (by decide) (by decide) (by decide)
  have hsame : reread r = r := (reread_eq_self_iff (wellFormed_annotated _ _)).2 hexpressible.fields
  have hread : (RecordReader.xml (.ofInput input)).readAll.result = .ok [r] := by
    have hfits : ∀ q ∈ [r], q.leader.Fits := List.forall_mem_singleton.2
      ⟨hexpressible.leader, hexpressible.recordLength_le, hexpressible.baseAddress_le⟩
    refine (readAll_facing (facing_ofInput rfl _ none [r]) hfits [r]).2 ⟨?_, ?_⟩
    · exact List.forall_mem_singleton.2 hexpressible.ordered
    · rw [List.map_singleton, hsame]
  obtain ⟨hresult, ⟨bs, hbs, hagain⟩, _⟩ := readAll_again_iff hread BoundedSink.reliable
    BoundedSink.sound_unbounded [.indent 2, .write r] rfl .drop
  rw [BoundedSink.taken_unbounded, List.nil_append] at hbs
  have hstable := (hagain (.window bs.length) none).2 (List.forall_mem_singleton.2
    ⟨hexpressible.fields, (controlFirst_iff (wellFormed_annotated _ _).ordered).1 hexpressible.ordered⟩)
  generalize (Writer.ofSink BoundedSink.unbounded).session [.indent 2, .write r] .drop = written
    at hresult hbs ⊢
  change written.2.accepted.toList = bs at hbs
  subst hbs
  exact ⟨hread, hresult, hstable⟩

/-- A record whose control fields come first until its fields are put in record order. -/
def outOfOrder : Record :=
  Record.ofParts (Leader.fresh .languageMaterial .monographOrItem)
    [⟨Tag.controlNumber, "1"⟩, ⟨Tag.fixedLengthData, "x"⟩,
      Field.data { first := 0x21, second := 0x32, third := 0x33 } ' ' '0' [⟨'a', "t"⟩]]

theorem not_controlFirst_outOfOrder {fs : List Field} (h : Ordered fs)
    (hperm : fs.Perm outOfOrder.fields) : ¬ControlFirst fs := by
  intro hfirst
  have hmem {f : Field} (hf : f ∈ outOfOrder.fields) : f ∈ fs := hperm.mem_iff.2 hf
  refine (controlFirst_iff h).1 hfirst
    (Field.data { first := 0x21, second := 0x32, third := 0x33 } ' ' '0' [⟨'a', "t"⟩])
    (hmem (by decide)) ⟨Tag.fixedLengthData, "x"⟩ (hmem (by decide)) ?_
  exact ⟨by decide, by decide, by decide⟩

/-- Not all that was read can be read again once it was written: record order puts a data field in front of
a control field, and there the reader does not take it. -/
theorem readAll_again_outOfOrder : ¬∀ (input : Input) (rs : List Record),
    (RecordReader.xml (.ofInput input)).readAll.result = .ok rs →
      let written := (Writer.ofSink BoundedSink.unbounded).session (rs.map .write) .finish
      (RecordReader.xml (.ofInput (.ofBytes written.2.accepted.toList))).readAll.result = .ok rs := by
  intro h
  have hfits : ∀ r ∈ [outOfOrder], r.leader.Fits := List.forall_mem_singleton.2
    ⟨Leader.encodable_fresh _ _, by decide, by decide⟩
  have hread := (readAll_facing (facing_ofInput (l := .compact) rfl (.window 0) none [outOfOrder]) hfits
    [reread outOfOrder]).2 ⟨List.forall_mem_singleton.2 (by unfold ControlFirst; decide), rfl⟩
  have hagain := h _ _ hread
  obtain ⟨_, bs, hbs, hiff⟩ := readAll_session_iff BoundedSink.reliable BoundedSink.sound_unbounded
    [.write (reread outOfOrder)] rfl
    (List.forall_mem_singleton.2 (hfits outOfOrder (List.mem_singleton_self _))) .finish
  rw [BoundedSink.taken_unbounded, List.nil_append] at hbs
  subst hbs
  have hfirst := List.forall_mem_singleton.1 ((hiff (.window _) none _).1 hagain).1
  have hkept : outOfOrder.fields.filterMap Field.reread? = outOfOrder.fields := by decide
  exact not_controlFirst_outOfOrder (Record.wellFormed_sorted_ofParts _ _).ordered
    (hkept ▸ sortFields_perm _) hfirst

end Marc21.Slim
