import Marc21.Record.Validity
import Marc21.Slim.Writer
import Marc21.Proofs.Subfields

/-!
What the check of a record says about its data fields. In a field that passes, a delimiter stands right
behind the indicators and the last delimiter has a code (`runs_of_flaw?`), but a delimiter may be taken
for the code of another. Decoding drops such a delimiter, so writing the decoded subfields gives back the
contents exactly if no two delimiters stand together (`reencode_eq_iff`).
-/

namespace Marc21

namespace RunCheck

/-! ## The check of the runs -/

theorem foldl_of_stray {c : RunCheck} (h : c.place = .stray) (bs : Bytes) : bs.foldl step c = c := by
  induction bs with
  | nil => rfl
  | cons b bs ih =>
    have hstep : step c b = c := by rw [step, h]
    rw [List.foldl_cons, hstep, ih]

/-- Only a delimiter leads to where a code is due. -/
theorem place_step_ne_code {c : RunCheck} {b : UInt8} (hb : b ≠ delimiterByte) :
    (c.step b).place ≠ .code := by
  unfold step
  cases hplace : c.place with
  | start => simp [hb]
  | code => simp
  | value code isEmpty => simp [hb]
  | stray => simp [hplace]

/-- A delimiter that is not taken for a code has one due behind it. -/
theorem place_step_delimiter {c : RunCheck} (h : c.place ≠ .code) :
    (c.step delimiterByte).place = .code ∨ (c.step delimiterByte).place = .stray := by
  unfold step
  cases hplace : c.place with
  | start => simp
  | code => exact absurd hplace h
  | value code isEmpty => simp
  | stray => exact .inr hplace

theorem place_finish {c : RunCheck} {p : RunPlace} (hp : p = .stray ∨ p = .code) :
    c.finish.place = p ↔ c.place = p := by
  unfold finish
  split
  · next hplace =>
    rw [hplace]
    rcases hp with rfl | rfl <;> simp
  · rfl

theorem eq_delimiter_of_mem {c : Char} (h : delimiterByte ∈ Utf8.encodeChar c) : c = delimiter := by
  have hval := (Utf8.mem_encodeChar_iff (b := delimiterByte) (by decide)).1 h
  rw [← Char.ofNat_toNat c, hval]
  rfl

/-- The check of a text behind the indicators. -/
def ofText (s : List Char) : RunCheck := (s.flatMap Utf8.encodeChar).foldl step ⟨.start, []⟩

theorem ofText_concat (s : List Char) (c : Char) :
    ofText (s ++ [c]) = (Utf8.encodeChar c).foldl step (ofText s) := by
  rw [ofText, List.flatMap_append, List.foldl_append, List.flatMap_singleton]
  rfl

/-- A text that starts with anything but a delimiter is stray. -/
theorem delimiter_prefix {s : List Char} (hs : s ≠ []) (h : (ofText s).place ≠ .stray) :
    [delimiter] <+: s := by
  obtain ⟨c, s, rfl⟩ := List.exists_cons_of_ne_nil hs
  obtain ⟨b, bs, hbytes⟩ := List.exists_cons_of_ne_nil (Utf8.encodeChar_ne_nil c)
  by_cases hb : b = delimiterByte
  · rw [eq_delimiter_of_mem (c := c) (by rw [hbytes, hb]; exact List.mem_cons_self)]
    exact List.prefix_append [delimiter] s
  · have hstray : (step ⟨.start, []⟩ b).place = .stray := by simp [step, hb]
    refine absurd ?_ h
    rw [ofText, List.flatMap_cons, hbytes, List.cons_append, List.foldl_cons, foldl_of_stray hstray,
      hstray]

/-- A text ends with a delimiter in need of a code, unless the delimiter is taken for a code itself. -/
theorem delimiters_suffix {s : List Char} (hstray : (ofText s).place ≠ .stray)
    (hcode : (ofText s).place ≠ .code) (h : [delimiter] <:+ s) : [delimiter, delimiter] <:+: s := by
  obtain ⟨before, rfl⟩ := h
  have hbytes : Utf8.encodeChar delimiter = [delimiterByte] := by decide
  rw [ofText_concat, hbytes, List.foldl_cons, List.foldl_nil] at hstray hcode
  have hbefore : (ofText before).place = .code := by
    by_contra hne
    exact (place_step_delimiter hne).elim hcode hstray
  rcases List.eq_nil_or_concat before with rfl | ⟨init, c, rfl⟩
  · cases hbefore
  · -- The byte before the last can only be a delimiter, and no other character ends with one.
    obtain ⟨bs, b, hlast⟩ : ∃ bs b, Utf8.encodeChar c = bs ++ [b] :=
      ⟨_, _, (List.dropLast_append_getLast (Utf8.encodeChar_ne_nil c)).symm⟩
    rw [List.concat_eq_append, ofText_concat, hlast, List.foldl_append, List.foldl_cons,
      List.foldl_nil] at hbefore
    have hb : b = delimiterByte := by
      by_contra hne
      exact place_step_ne_code hne hbefore
    obtain rfl : c = delimiter := eq_delimiter_of_mem (by simp [hlast, hb])
    exact ⟨init, [], by simp⟩

end RunCheck

/-! ## Edits of a field -/

namespace Field

/-- A data field that its indicators and subfields make up in full. What is made of it from them keeps all
that it is not asked to change: a subfield that is added goes in between, those that are deleted go and
no more, and the XML form has them all. -/
structure Kept (f : Field) (indicator1 indicator2 : Char) : Prop where
  decoded : f.contents.toList = indicator1 :: indicator2 :: f.subfields.encode
  added (code : Char) (value : String) : ∃ before after, f.contents.toList = before ++ after ∧
    (f.addSubfield code value).contents.toList = before ++ Subfield.encode ⟨code, value⟩ ++ after
  deleted (code : Char) : (f.deleteSubfields code).contents.toList =
    indicator1 :: indicator2 :: (f.subfields.filter (·.code ≠ code)).flatMap Subfield.encode
  marks : Slim.fieldMarks f = .start "datafield" [("tag", f.tag.text),
      ("ind1", indicator1.toString), ("ind2", indicator2.toString)] ::
    f.subfields.flatMap (fun s => Slim.textElement "subfield" [("code", s.code.toString)] s.value) ++
    [.stop "datafield"]

section

variable {f : Field} {indicator1 indicator2 : Char} {s : List Char}

theorem indicator1?_of_toList (h : f.contents.toList = indicator1 :: indicator2 :: s) :
    f.indicator1? = some indicator1 := by
  rw [indicator1?, h]
  rfl

theorem indicator2?_of_toList (h : f.contents.toList = indicator1 :: indicator2 :: s) :
    f.indicator2? = some indicator2 := by
  rw [indicator2?, h]
  rfl

theorem withSubfields_of_toList (h : f.contents.toList = indicator1 :: indicator2 :: s)
    (ss : Subfields) : f.withSubfields ss = data f.tag indicator1 indicator2 ss := by
  rw [withSubfields, indicator1?_of_toList h, indicator2?_of_toList h]
  rfl

theorem kept_of_decoded (hcontrol : f.isControl = false)
    (h : f.contents.toList = indicator1 :: indicator2 :: f.subfields.encode) :
    f.Kept indicator1 indicator2 where
  decoded := h
  added code value := by
    obtain ⟨before, after, hss, hadd⟩ := f.subfields.add_append code value
    refine ⟨indicator1 :: indicator2 :: Subfields.encode before, Subfields.encode after, ?_, ?_⟩
    · rw [h, hss, List.cons_append, List.cons_append, Subfields.encode, Subfields.encode, Subfields.encode,
        ← List.flatMap_append]
    · rw [addSubfield, withSubfields_of_toList h, toList_contents_data, hadd, Subfields.encode,
        List.flatMap_append, List.flatMap_cons]
      simp only [Subfields.encode, List.cons_append, List.append_assoc]
  deleted code := by
    rw [deleteSubfields, if_neg (by simp [hcontrol]), withSubfields_of_toList h, toList_contents_data,
      Subfields.deleteAll_eq]
    rfl
  marks := by
    rw [Slim.fieldMarks, if_neg (by simp [hcontrol]), indicator1?_of_toList h, indicator2?_of_toList h]
    rfl

end

/-- Behind the indicators of a field that passes the check stands a delimiter, and a delimiter at the end
is taken for the code of another. -/
theorem runs_of_flaw? {f : Field} (h : f.flaw? = none) : ∃ indicator1 indicator2 s,
    f.contents.toList = indicator1 :: indicator2 :: s ∧ [delimiter] <+: s ∧
      ([delimiter] <:+ s → [delimiter, delimiter] <:+: s) := by
  have hlong : 5 ≤ f.contents.toList.length := by
    by_contra hshort
    rw [flaw?, if_pos (by rw [← String.length_toList]; omega)] at h
    cases h
  obtain ⟨indicator1, indicator2, s, hs⟩ : ∃ i j s, f.contents.toList = i :: j :: s := by
    match hlist : f.contents.toList with
    | [] | [_] => simp [hlist] at hlong
    | i :: j :: s => exact ⟨i, j, s, rfl⟩
  have hcheck : RunCheck.ofContents f.contents = (RunCheck.ofText s).finish := by
    rw [RunCheck.ofContents, hs]
    rfl
  rw [flaw?, if_neg (by rw [← String.length_toList]; omega), hcheck] at h
  have hstray : (RunCheck.ofText s).place ≠ .stray := by
    intro hplace
    rw [(RunCheck.place_finish (.inl rfl)).2 hplace] at h
    cases h
  have hcode : (RunCheck.ofText s).place ≠ .code := by
    intro hplace
    rw [(RunCheck.place_finish (.inr rfl)).2 hplace] at h
    cases h
  have hne : s ≠ [] := by
    rintro rfl
    simp [hs] at hlong
  exact ⟨indicator1, indicator2, s, hs, RunCheck.delimiter_prefix hne hstray,
    RunCheck.delimiters_suffix hstray hcode⟩

end Field

theorem Record.flaw?_of_isValid {r : Record} (h : r.isValid = true) {f : Field} (hf : f ∈ r.dataFields) :
    f.flaw? = none := by
  rw [isValid, flaw?] at h
  split at h
  · cases h
  · exact List.findSome?_eq_none_iff.1 (Option.isNone_iff_eq_none.1 h) f hf

/-! ## Main result -/

/-- **Decoding a field that passes the check loses nothing but delimiters** for which others are taken as
codes. It loses none exactly if no two delimiters stand together, and then whatever is made of the
decoded form keeps all that it is not asked to change. -/
theorem reencode_eq_iff {r : Record} (hr : r.isValid = true) {f : Field} (hf : f ∈ r.dataFields) :
    ∃ indicator1 indicator2, f.indicator1? = some indicator1 ∧ f.indicator2? = some indicator2 ∧
      let again := Field.data f.tag indicator1 indicator2 f.subfields
      again.contents.toList.Sublist f.contents.toList ∧
      again.contents.toList.filter (· ≠ delimiter) = f.contents.toList.filter (· ≠ delimiter) ∧
      (again.contents = f.contents ↔ ¬[delimiter, delimiter] <:+: f.contents.toList.drop 2) ∧
      (again.contents = f.contents → f.Kept indicator1 indicator2) := by
  have hcontrol : f.isControl = false := by simpa [Record.dataFields] using (List.mem_filter.1 hf).2
  obtain ⟨indicator1, indicator2, s, hs, hfirst, hlast⟩ :=
    Field.runs_of_flaw? (Record.flaw?_of_isValid hr hf)
  have hdrop : f.contents.toList.drop 2 = s := by
    rw [hs]
    rfl
  have hhead : (delimitedRuns (f.contents.toList.drop 2)).1 = [] := by
    rw [hdrop]
    exact (head_eq_nil_iff s).2 (.inr hfirst)
  have hsublist := Subfields.encode_ofContents_sublist f.contents
  have hfilter := Subfields.filter_encode_ofContents hhead
  have hiff := Subfields.encode_ofContents_eq_iff hhead
  rw [nil_mem_runs_iff] at hiff
  rw [hdrop] at hsublist hfilter hiff
  have hcontents : (Field.data f.tag indicator1 indicator2 f.subfields).contents = f.contents ↔
      f.subfields.encode = s := by
    rw [← String.toList_inj, Field.toList_contents_data, hs]
    simp
  refine ⟨indicator1, indicator2, Field.indicator1?_of_toList hs, Field.indicator2?_of_toList hs,
    ?_, ?_, ?_, ?_⟩
  · rw [Field.toList_contents_data, hs]
    exact (hsublist.cons_cons _).cons_cons _
  · rw [Field.toList_contents_data, hs]
    simp only [List.filter_cons]
    rw [Field.subfields, hfilter]
  · rw [hcontents, Field.subfields, hiff, hdrop, not_or]
    exact ⟨And.left, fun h => ⟨h, fun hend => h (hlast hend)⟩⟩
  · intro heq
    apply Field.kept_of_decoded hcontrol
    rw [hs, hcontents.1 heq]

/-- A title is written back as it was, and it has an author put in behind. -/
theorem reencode_eq_iff_title :
    let f : Field := ⟨Tag.titleStatement, "10\x1FaA\x1FcB"⟩
    let r := Record.ofParts (Leader.fresh .languageMaterial .monographOrItem)
      [⟨Tag.controlNumber, "1"⟩, f]
    r.isValid = true ∧ f ∈ r.dataFields ∧ ∃ indicator1 indicator2,
      f.indicator1? = some indicator1 ∧ f.indicator2? = some indicator2 ∧
        (Field.data f.tag indicator1 indicator2 f.subfields).contents = f.contents ∧
        f.Kept indicator1 indicator2 := by
  intro f r
  have hr : r.isValid = true := by decide
  have hf : f ∈ r.dataFields := by decide
  have hapart : ¬[delimiter, delimiter] <:+: f.contents.toList.drop 2 := by decide
  obtain ⟨i, j, hi, hj, _, _, hiff, hkept⟩ := reencode_eq_iff hr hf
  exact ⟨hr, hf, i, j, hi, hj, hiff.2 hapart, hkept (hiff.2 hapart)⟩

/-- Not every field that passes the check is written back as it was: of two delimiters that stand
together, the check takes the second as a code and decoding drops the first. -/
theorem reencode_ne_doubled : ¬∀ r : Record, r.isValid = true → ∀ f ∈ r.dataFields,
    ∀ indicator1 indicator2, f.indicator1? = some indicator1 → f.indicator2? = some indicator2 →
      (Field.data f.tag indicator1 indicator2 f.subfields).contents = f.contents := by
  intro h
  have hsame := h (Record.ofParts (Leader.fresh .languageMaterial .monographOrItem)
      [⟨Tag.controlNumber, "1"⟩, ⟨Tag.titleStatement, "  \x1F\x1Fax"⟩]) (by decide)
    ⟨Tag.titleStatement, "  \x1F\x1Fax"⟩ (by decide) ' ' ' ' (by decide) (by decide)
  exact absurd hsame (by decide)

end Marc21
