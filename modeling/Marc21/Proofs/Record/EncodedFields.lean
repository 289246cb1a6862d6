import Marc21.Proofs.Record.Validity

/-!
The check of a record whose data fields are made of indicators and subfields. The bytes of a subfield lead from the
end of a run to the end of the next one (`foldl_step_subfield`), so in such a field nothing is stray and no code is
missing, and empty values are reported (`ofText_encode`). The check also asks for five characters, though, and a
field whose only subfield has an empty value has four: it alone is rejected (`isValid_encoded_iff`).
-/

namespace Marc21

/-- The byte that stands for a subfield in the report of empty values. The bytes behind the first one of a code are
taken for a value, so a subfield whose code has several is never reported. -/
def Subfield.reported? (s : Subfield) : Option UInt8 :=
  if s.value = "" ∧ s.code.toNat < 0x80 then some s.code.toNat.toUInt8 else none

/-! ## The check of encoded subfields -/

namespace RunCheck

/-- The check is in front of the first run or at the end of one. -/
def Between (c : RunCheck) : Prop := c.place = .start ∨ ∃ code isEmpty, c.place = .value code isEmpty

variable {c : RunCheck} {s : Subfield} {ss : Subfields}

theorem Between.finish (h : c.Between) : c.finish.Between := by
  rcases h with h | ⟨code, isEmpty, h⟩
  · exact .inl (by simp [RunCheck.finish, h])
  · cases isEmpty <;> exact .inr (by simp [RunCheck.finish, h])

/-- A delimiter opens a run, and if the value of the last one was empty, it is put down. -/
theorem step_delimiter (h : c.Between) : c.step delimiterByte = ⟨.code, c.finish.empties⟩ := by
  rcases h with h | ⟨code, isEmpty, h⟩
  · simp [step, RunCheck.finish, h]
  · cases isEmpty <;> simp [step, RunCheck.finish, h]

theorem foldl_step_value (code : UInt8) (isEmpty : Bool) (empties : List UInt8) {bs : Bytes}
    (h : delimiterByte ∉ bs) :
    bs.foldl step ⟨.value code isEmpty, empties⟩ = ⟨.value code (isEmpty && bs.isEmpty), empties⟩ := by
  induction bs generalizing isEmpty with
  | nil => simp
  | cons b bs ih =>
    rw [List.mem_cons, not_or] at h
    have hstep : step ⟨.value code isEmpty, empties⟩ b = ⟨.value code false, empties⟩ := by
      simp [step, Ne.symm h.1]
    rw [List.foldl_cons, hstep, ih false h.2]
    simp

/-- The bytes of a subfield lead from the end of a run to the end of the next one. -/
theorem foldl_step_subfield (hc : c.Between) (hs : s.Clean) : ∃ code isEmpty,
    (s.encode.flatMap Utf8.encodeChar).foldl step c = ⟨.value code isEmpty, c.finish.empties⟩ ∧
      s.reported? = if isEmpty then some code else none := by
  obtain ⟨b, bs, hcode⟩ := List.exists_cons_of_ne_nil (Utf8.encodeChar_ne_nil s.code)
  have hbytes : s.encode.flatMap Utf8.encodeChar = delimiterByte :: b :: (bs ++ Utf8.encode s.value) := by
    have hdelimiter : Utf8.encodeChar delimiter = [delimiterByte] := by decide
    rw [Subfield.encode, List.flatMap_cons, List.flatMap_cons, hdelimiter, hcode]
    rfl
  have hvalue : delimiterByte ∉ bs ++ Utf8.encode s.value := by
    rw [List.mem_append, not_or]
    refine ⟨fun hmem => hs.code_ne (eq_delimiter_of_mem ?_), fun hmem => hs.not_mem_value ?_⟩
    · exact hcode ▸ List.mem_cons_of_mem b hmem
    · exact (Utf8.mem_encode_iff (by decide)).1 hmem
  refine ⟨b, (bs ++ Utf8.encode s.value).isEmpty, ?_, ?_⟩
  · have hstep : step ⟨.code, c.finish.empties⟩ b = ⟨.value b true, c.finish.empties⟩ := rfl
    rw [hbytes, List.foldl_cons, List.foldl_cons, step_delimiter hc, hstep,
      foldl_step_value _ _ _ hvalue, Bool.true_and]
  · by_cases hlt : s.code.toNat < 0x80
    · obtain ⟨rfl, rfl⟩ : s.code.toNat.toUInt8 = b ∧ [] = bs := by
        simpa [Utf8.encodeChar_of_lt hlt] using hcode
      simp only [Subfield.reported?, hlt, and_true, List.nil_append, List.isEmpty_iff,
        Utf8.encode_eq_nil_iff]
    · obtain ⟨_, b', bs', hlong⟩ := Utf8.exists_encodeChar_of_le (Nat.not_lt.1 hlt)
      obtain ⟨_, rfl⟩ : b = _ ∧ bs = b' :: bs' := by simpa [hcode] using hlong
      simp [Subfield.reported?, hlt]

theorem foldl_step_subfields (hc : c.Between) (h : ∀ s ∈ ss, s.Clean) :
    ((ss.encode.flatMap Utf8.encodeChar).foldl step c).Between ∧
      ((ss.encode.flatMap Utf8.encodeChar).foldl step c).finish.empties =
        (ss.filterMap Subfield.reported?).reverse ++ c.finish.empties := by
  induction ss generalizing c with
  | nil => exact ⟨hc, rfl⟩
  | cons s ss ih =>
    obtain ⟨hs, hss⟩ := List.forall_mem_cons.1 h
    obtain ⟨code, isEmpty, hstep, hreported⟩ := foldl_step_subfield hc hs
    obtain ⟨hbetween, hempties⟩ := ih (c := ⟨.value code isEmpty, c.finish.empties⟩) (.inr ⟨_, _, rfl⟩) hss
    have hbytes : (Subfields.encode (s :: ss)).flatMap Utf8.encodeChar =
        s.encode.flatMap Utf8.encodeChar ++ (Subfields.encode ss).flatMap Utf8.encodeChar := by
      rw [Subfields.encode, List.flatMap_cons, List.flatMap_append]
      rfl
    rw [hbytes, List.foldl_append, hstep, List.filterMap_cons, hreported]
    refine ⟨hbetween, hempties.trans ?_⟩
    cases isEmpty <;> simp [RunCheck.finish]

/-- Encoded subfields are runs as the check wants them, and empty values are put down. -/
theorem ofText_encode (h : ∀ s ∈ ss, s.Clean) : (ofText ss.encode).Between ∧
    (ofText ss.encode).finish.empties = (ss.filterMap Subfield.reported?).reverse := by
  obtain ⟨hbetween, hempties⟩ := foldl_step_subfields (c := ⟨.start, []⟩) (.inl rfl) h
  exact ⟨hbetween, hempties.trans (List.append_nil _)⟩

end RunCheck

/-! ## Encoded fields -/

namespace Subfields

theorem length_encode_cons (s : Subfield) (ss : Subfields) :
    (encode (s :: ss)).length = 2 + s.value.length + (encode ss).length := by
  simp only [encode, Subfield.encode, List.flatMap_cons, List.length_append, List.length_cons,
    String.length_toList]
  omega

/-- Any character of a value makes for three, and so does a second subfield. -/
theorem length_encode_lt_iff {ss : Subfields} (h : ss ≠ []) :
    (encode ss).length < 3 ↔ ss.map Subfield.value = [""] := by
  match ss, h with
  | [s], _ =>
    have hnil : (encode []).length = 0 := rfl
    rw [length_encode_cons, hnil, List.map_singleton, List.singleton_inj, ← String.length_eq_zero_iff]
    omega
  | s :: t :: ss, _ =>
    rw [length_encode_cons, length_encode_cons]
    simp
    omega

end Subfields

namespace Field

/-- A field that is made of indicators and subfields, none of which reads as the start of another. -/
def Encoded (f : Field) : Prop := ∃ indicator1 indicator2 ss,
  ss ≠ [] ∧ (∀ s ∈ ss, s.Clean) ∧ f = data f.tag indicator1 indicator2 ss

/-- The only subfield of the field has an empty value. -/
def isBare (f : Field) : Bool := f.subfields.map Subfield.value = [""]

/-- What there is to report of the empty values of a field. -/
def emptyNotices (f : Field) : List Notice :=
  (f.subfields.filterMap Subfield.reported?).map (Notice.subfieldEmpty f.tag)

namespace Encoded

variable {f : Field}

/-- The check of an encoded field finds nothing wrong but its length. -/
theorem check (h : f.Encoded) : (f.contents.length < 5 ↔ f.isBare = true) ∧
    (RunCheck.ofContents f.contents).Between ∧
    (RunCheck.ofContents f.contents).empties.reverse = f.subfields.filterMap Subfield.reported? := by
  obtain ⟨indicator1, indicator2, ss, hne, hclean, hdata⟩ := h
  have hcontents : f.contents.toList = indicator1 :: indicator2 :: Subfields.encode ss := by
    rw [hdata, toList_contents_data]
  have hsubfields : f.subfields = ss := by rw [hdata, subfields_data _ _ _ hclean]
  have hcheck : RunCheck.ofContents f.contents = (RunCheck.ofText (Subfields.encode ss)).finish := by
    rw [RunCheck.ofContents, hcontents]
    rfl
  obtain ⟨hbetween, hempties⟩ := RunCheck.ofText_encode hclean
  refine ⟨?_, hcheck ▸ hbetween.finish, ?_⟩
  · rw [isBare, decide_eq_true_iff, hsubfields, ← Subfields.length_encode_lt_iff hne,
      ← String.length_toList, hcontents, List.length_cons, List.length_cons]
    omega
  · rw [hcheck, hempties, List.reverse_reverse, hsubfields]

theorem flaw?_eq (h : f.Encoded) : f.flaw? = if f.isBare then some (.shortContents f.tag) else none := by
  obtain ⟨hlength, hbetween, _⟩ := h.check
  rw [flaw?]
  refine ite_congr (propext hlength) (fun _ => rfl) fun _ => ?_
  rcases hbetween with hplace | ⟨code, isEmpty, hplace⟩
  · rw [hplace]
  · rw [hplace]

theorem flaw?_isNone (h : f.Encoded) : f.flaw?.isNone = !f.isBare := by
  rw [h.flaw?_eq]
  cases f.isBare <;> rfl

theorem validityNotices_eq (h : f.Encoded) :
    f.validityNotices = if f.isBare then [] else f.emptyNotices := by
  obtain ⟨hlength, _, hempties⟩ := h.check
  rw [validityNotices, hempties]
  exact ite_congr (propext hlength) (fun _ => rfl) fun _ => rfl

end Encoded

theorem findSome?_flaw?_of_encoded {fs : List Field} (h : ∀ f ∈ fs, f.Encoded) :
    fs.findSome? flaw? = (fs.find? isBare).map fun f => .shortContents f.tag := by
  induction fs with
  | nil => rfl
  | cons f fs ih =>
    obtain ⟨hf, hfs⟩ := List.forall_mem_cons.1 h
    rw [List.findSome?_cons, List.find?_cons, hf.flaw?_eq, ih hfs]
    cases f.isBare <;> rfl

/-- The field that is rejected reports nothing. -/
theorem flatMap_validityNotices_of_encoded {fs : List Field} (h : ∀ f ∈ fs, f.Encoded) :
    let sound := fs.takeWhile (·.flaw?.isNone)
    (sound ++ (fs.drop sound.length).take 1).flatMap validityNotices =
      (fs.takeWhile (!·.isBare)).flatMap emptyNotices := by
  induction fs with
  | nil => rfl
  | cons f fs ih =>
    obtain ⟨hf, hfs⟩ := List.forall_mem_cons.1 h
    have hnotices := hf.validityNotices_eq
    cases hbare : f.isBare with
    | true => simp [hf.flaw?_isNone, hnotices, hbare]
    | false => simpa [hf.flaw?_isNone, hnotices, hbare] using ih hfs

end Field

/-! ## Main result -/

namespace Record

/-- **Which encoded fields pass the check.** Of a record that starts with `001` and whose data fields are all encoded,
the first data field is rejected, as too short, whose only subfield has an empty value. If there is none, the record is
valid. Other empty values are reported, up to the field that is rejected. -/
theorem isValid_encoded_iff {r : Record} (hfirst : r.fields.head?.map Field.tag = some Tag.controlNumber)
    (hencoded : ∀ f ∈ r.dataFields, f.Encoded) :
    (r.isValid = true ↔ ∀ f ∈ r.dataFields, f.isBare = false) ∧
    r.flaw? = (r.dataFields.find? Field.isBare).map (fun f => .shortContents f.tag) ∧
    r.validityNotices = (r.dataFields.takeWhile (!·.isBare)).flatMap Field.emptyNotices := by
  have hnumber : r.controlNumber?.isNone = false := by
    obtain ⟨f, hhead, htag⟩ := Option.map_eq_some_iff.1 hfirst
    obtain ⟨fs, hfields⟩ := List.head?_eq_some_iff.1 hhead
    simp [controlNumber?, hfields, htag]
  have hflaw : r.flaw? = (r.dataFields.find? Field.isBare).map (fun f => .shortContents f.tag) := by
    rw [flaw?, hnumber]
    exact Field.findSome?_flaw?_of_encoded hencoded
  refine ⟨?_, hflaw, ?_⟩
  · rw [isValid, hflaw, Option.isNone_map, Option.isNone_iff_eq_none, List.find?_eq_none]
    simp
  · rw [validityNotices, hnumber]
    exact Field.flatMap_validityNotices_of_encoded hencoded

/-- An empty value in front of another subfield is reported and does no harm. -/
theorem isValid_encoded_iff_name :
    let name := Field.data { first := 0x37, second := 0x30, third := 0x30 } '1' ' ' [⟨'a', ""⟩, ⟨'b', "x"⟩]
    let r := ofParts (Leader.fresh .languageMaterial .monographOrItem) [⟨Tag.controlNumber, "1"⟩, name]
    r.fields.head?.map Field.tag = some Tag.controlNumber ∧ (∀ f ∈ r.dataFields, f.Encoded) ∧
      r.isValid = true ∧ r.validityNotices = [.subfieldEmpty name.tag 0x61] := by
  intro name r
  have hfirst : r.fields.head?.map Field.tag = some Tag.controlNumber := rfl
  have hencoded : ∀ f ∈ r.dataFields, f.Encoded := by
    have hdata : r.dataFields = [name] := by decide
    rw [hdata, List.forall_mem_singleton]
    refine ⟨'1', ' ', [⟨'a', ""⟩, ⟨'b', "x"⟩], by decide, ?_, rfl⟩
    rw [List.forall_mem_cons, List.forall_mem_singleton]
    exact ⟨⟨by decide, by decide⟩, ⟨by decide, by decide⟩⟩
  obtain ⟨hvalid, _, hnotices⟩ := isValid_encoded_iff hfirst hencoded
  exact ⟨hfirst, hencoded, hvalid.2 (by decide), hnotices.trans (by decide)⟩

/-- Not every record of encoded fields is valid: a field with nothing but a code is too short. -/
theorem not_isValid_bare : ¬∀ r : Record, r.fields.head?.map Field.tag = some Tag.controlNumber →
    (∀ f ∈ r.dataFields, f.Encoded) → r.isValid = true := by
  intro h
  let bare := Field.data { first := 0x37, second := 0x30, third := 0x30 } '1' ' ' [⟨'a', ""⟩]
  let r := ofParts (Leader.fresh .languageMaterial .monographOrItem) [⟨Tag.controlNumber, "1"⟩, bare]
  have hencoded : ∀ f ∈ r.dataFields, f.Encoded := by
    have hdata : r.dataFields = [bare] := by decide
    rw [hdata, List.forall_mem_singleton]
    refine ⟨'1', ' ', [⟨'a', ""⟩], by decide, ?_, rfl⟩
    rw [List.forall_mem_singleton]
    exact ⟨by decide, by decide⟩
  have hinvalid : r.isValid = false := by decide
  exact absurd (h r rfl hencoded) (by rw [hinvalid]; decide)

end Record

end Marc21
