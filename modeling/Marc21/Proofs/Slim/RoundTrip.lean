import Marc21.Format.Writer
import Marc21.Proofs.Subfields
import Marc21.Proofs.Slim.Rereading

/-!
Records that are written as a document are read back, with their fields in record order
(`readAll_session`), if nothing in them is left out: a field is carried whole exactly if it is of the two
forms that elements can take (`reread?_eq_some_iff`).
-/

namespace Marc21

/-- A field that elements can carry: text that is not empty, or indicators and subfields with values. -/
inductive Field.Expressible : Field → Prop where
  | control {tag : Tag} {contents : String} (htag : tag.isControl = true) (hne : contents ≠ "") :
      Expressible ⟨tag, contents⟩
  | data {tag : Tag} (indicator1 indicator2 : Char) {ss : Subfields} (htag : tag.isControl = false)
      (hne : ss ≠ []) (hclean : ∀ s ∈ ss, s.Clean) (hvalue : ∀ s ∈ ss, s.value ≠ "") :
      Expressible (Field.data tag indicator1 indicator2 ss)

/-- Elements carry the fields that they can express and no others as they are. -/
theorem Field.reread?_eq_some_iff {f : Field} : f.reread? = some f ↔ f.Expressible := by
  cases hf : f.isControl with
  | true =>
    rw [reread?, if_pos hf]
    constructor
    · intro h
      split at h
      · cases h
      · next hne => exact .control hf hne
    · intro h
      cases h with
      | control _ hne => exact if_neg hne
      | data _ _ htag => cases hf.symm.trans htag
  | false =>
    rw [reread?_of_data hf]
    constructor
    · intro h
      split at h
      · cases h
      · next hne =>
        rw [← Option.some.inj h]
        refine .data _ _ hf hne ?_ ?_
        · exact fun s hs => Subfields.clean_ofContents (List.mem_filter.1 hs).1
        · exact fun s hs => of_decide_eq_true (List.mem_filter.1 hs).2
    · intro h
      cases h with
      | control htag _ => cases hf.symm.trans htag
      | @data tag i j ss _ hne hclean hvalue =>
        have hkept : ss.filter (·.value ≠ "") = ss :=
          List.filter_eq_self.2 fun s hs => decide_eq_true (hvalue s hs)
        rw [subfields_data tag i j hclean, hkept, if_neg hne, indicator1?_data, indicator2?_data]
        rfl

/-- A record that a document can carry. Its control fields come first. -/
structure Record.Expressible (r : Record) : Prop where
  leader : r.leader.Encodable
  recordLength_le : r.leader.recordLength ≤ 99999
  baseAddress_le : r.leader.baseAddress ≤ 99999
  fields : ∀ f ∈ r.fields, f.Expressible
  ordered : r.fields.Pairwise fun f g => g.isControl = true → f.isControl = true

namespace Slim

/-- What reading makes of a record that was written. -/
def readBack (r : Record) : Record := (Record.ofParts r.leader r.fields).sorted

theorem reread_eq_readBack {r : Record} (h : ∀ f ∈ r.fields, f.Expressible) : reread r = readBack r := by
  have hfields : r.fields.filterMap Field.reread? = r.fields := by
    rw [List.filterMap_congr fun f hf => Field.reread?_eq_some_iff.2 (h f hf), List.filterMap_some]
  rw [reread, readBack, hfields]

theorem gives_readBack {r : Reader} {rs : List Record} (h : Facing r rs)
    (hrs : ∀ q ∈ rs, q.Expressible) : RecordReader.Gives (.xml r) (rs.map readBack) := by
  have hread := (readAll_facing h
    (fun q hq => ⟨(hrs q hq).leader, (hrs q hq).recordLength_le, (hrs q hq).baseAddress_le⟩) _).2
    ⟨fun q hq => (hrs q hq).ordered, rfl⟩
  rw [List.map_congr_left fun q hq => reread_eq_readBack (hrs q hq).fields] at hread
  exact RecordReader.gives_of_readAll hread

/-! ## Main result -/

/-- **Document round trip.** Records that are written to a sink that does not fail, whatever other calls
come between and however the writer is closed, are read back from what it took: in order, with their
leaders and with their fields in record order. -/
theorem readAll_session {σ : Type} [ByteSink σ] (k : Reliable σ) {sink : σ} (hsink : k.sound sink)
    {calls : List Call} (hcalls : ∀ r ∈ calls.filterMap Call.record?, r.Expressible)
    (closing : Closing) :
    let written := (Writer.ofSink sink).session calls closing
    written.1 = .ok () ∧ ∃ bs, k.taken written.2 = k.taken sink ++ bs ∧
      ∀ supply seekFailure,
        (RecordReader.xml (.ofInput ⟨bs, supply, none, seekFailure⟩)).readAll.result =
          .ok ((calls.filterMap Call.record?).map fun r => (Record.ofParts r.leader r.fields).sorted) := by
  obtain ⟨last, hsession, l, hl, htaken⟩ := Writer.session_spec hsink calls closing
  rw [hsession]
  refine ⟨rfl, _, htaken, ?_⟩
  intro supply seekFailure
  exact RecordReader.readAll_of_gives (gives_readBack (facing_ofInput hl supply seekFailure _) hcalls)

/-- A record of a control number and a title, with white space for a subfield and marks that have to be
escaped. -/
def annotated (controlNumber title : String) : Record :=
  Record.ofParts (Leader.fresh .languageMaterial .monographOrItem)
    [⟨Tag.controlNumber, controlNumber⟩,
      Field.data Tag.titleStatement '<' ' ' [⟨'a', title⟩, ⟨'&', "\n "⟩]]

theorem expressible_annotated {controlNumber title : String} (hnumber : controlNumber ≠ "")
    (htitle : title ≠ "") (hclean : delimiter ∉ title.toList) :
    (annotated controlNumber title).Expressible := by
  refine ⟨Leader.encodable_fresh _ _, Nat.zero_le _, (by decide : 445 ≤ 99999), ?_, ?_⟩
  · intro f hf
    simp only [annotated, Record.ofParts, List.mem_cons, List.not_mem_nil, or_false] at hf
    rcases hf with rfl | rfl
    · exact .control rfl hnumber
    · refine .data '<' ' ' rfl (by simp) ?_ ?_
      · simp only [List.forall_mem_cons]
        exact ⟨⟨by simp [delimiter], hclean⟩, ⟨by decide, by decide⟩, by simp⟩
      · simp only [List.forall_mem_cons]
        exact ⟨htitle, by decide, by simp⟩
  · simp [annotated, Record.ofParts, Field.isControl, Tag.isControl, Tag.controlNumber]

/-- Two records, written with indentation and flushed in between, by a writer that is then dropped. -/
theorem readAll_session_annotated :
    let calls := [.indent 2, .flush, .write (annotated "1" "<a> & \"b\""), .indent 4, .flush,
      .write (annotated " " "&amp;")]
    let written := (Writer.ofSink BoundedSink.unbounded).session calls .drop
    written.1 = .ok () ∧
      (RecordReader.xml (.ofInput (.ofBytes written.2.accepted.toList))).readAll.result =
        .ok ([annotated "1" "<a> & \"b\"", annotated " " "&amp;"].map fun r =>
          (Record.ofParts r.leader r.fields).sorted) := by
  intro calls
  have hcalls : ∀ r ∈ calls.filterMap Call.record?, r.Expressible := by
    change ∀ r ∈ [annotated "1" "<a> & \"b\"", annotated " " "&amp;"], r.Expressible
    simp only [List.forall_mem_cons]
    exact ⟨expressible_annotated (by decide) (by decide) (by decide),
      expressible_annotated (by decide) (by decide) (by decide), by simp⟩
  obtain ⟨hresult, bs, hbs, hread⟩ :=
    readAll_session BoundedSink.reliable BoundedSink.sound_unbounded hcalls .drop
  rw [BoundedSink.taken_unbounded, List.nil_append] at hbs
  generalize (Writer.ofSink BoundedSink.unbounded).session calls .drop = written at hresult hbs ⊢
  change written.2.accepted.toList = bs at hbs
  subst hbs
  exact ⟨hresult, hread (.window written.2.accepted.toList.length) none⟩

end Slim

end Marc21
