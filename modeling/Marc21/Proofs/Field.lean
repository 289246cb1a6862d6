import Marc21.Field
import Marc21.Proofs.Text.Utf8

/-!
A tag is read back from its text (`ofString?_text`), and a data field gives back the subfields it is made
of (`subfields_data`).
-/

namespace Marc21

namespace Tag

theorem lt_of_isGraphic {b : UInt8} (h : isGraphic b = true) : b < 0x80 := by
  simp only [isGraphic, Bool.and_eq_true, decide_eq_true_eq, UInt8.le_iff_toNat_le] at h
  rw [UInt8.lt_iff_toNat_lt]
  exact Nat.lt_of_le_of_lt h.2 (by decide)

theorem lt_of_mem_bytes {t : Tag} {b : UInt8} (h : b ∈ t.bytes) : b < 0x80 := by
  have hgraphic := t.graphic
  simp only [Bool.and_eq_true] at hgraphic
  obtain ⟨⟨hfirst, hsecond⟩, hthird⟩ := hgraphic
  simp only [bytes, List.mem_cons, List.not_mem_nil, or_false] at h
  rcases h with rfl | rfl | rfl
  · exact lt_of_isGraphic hfirst
  · exact lt_of_isGraphic hsecond
  · exact lt_of_isGraphic hthird

@[simp] theorem encode_text (t : Tag) : Utf8.encode t.text = t.bytes :=
  Utf8.encode_ofList_ascii fun _ hb => lt_of_mem_bytes hb

/-- A tag is read back from its text. -/
@[simp] theorem ofString?_text (t : Tag) : ofString? t.text = some t := by
  rw [ofString?, encode_text, ofBytes?_bytes]

end Tag

/-- A subfield in which nothing reads as the start of another. -/
structure Subfield.Clean (s : Subfield) : Prop where
  code_ne : s.code ≠ delimiter
  not_mem_value : delimiter ∉ s.value.toList

namespace Subfields

theorem delimitedRuns_encode {ss : Subfields} (h : ∀ s ∈ ss, s.Clean) :
    delimitedRuns ss.encode = ([], ss.map fun s => s.code :: s.value.toList) := by
  induction ss with
  | nil => rfl
  | cons s ss ih =>
    obtain ⟨hs, hss⟩ := List.forall_mem_cons.1 h
    have hclean : delimiter ∉ s.code :: s.value.toList := by
      rw [List.mem_cons, not_or]
      exact ⟨hs.code_ne.symm, hs.not_mem_value⟩
    have hbytes : encode (s :: ss) = delimiter :: (s.code :: s.value.toList ++ encode ss) := rfl
    rw [hbytes, delimitedRuns_cons, if_pos rfl, delimitedRuns_append hclean, ih hss, List.append_nil,
      List.map_cons]

end Subfields

namespace Field

variable (tag : Tag) (indicator1 indicator2 : Char) (ss : Subfields)

@[simp] theorem indicator1?_data : (data tag indicator1 indicator2 ss).indicator1? = some indicator1 := by
  simp [data, indicator1?]

@[simp] theorem indicator2?_data : (data tag indicator1 indicator2 ss).indicator2? = some indicator2 := by
  simp [data, indicator2?]

@[simp] theorem toList_contents_data :
    (data tag indicator1 indicator2 ss).contents.toList = indicator1 :: indicator2 :: ss.encode := by
  rw [data, String.toList_ofList]

/-- A data field gives back its subfields. -/
theorem subfields_data {ss : Subfields} (h : ∀ s ∈ ss, s.Clean) :
    (data tag indicator1 indicator2 ss).subfields = ss := by
  have hrun : (Subfield.ofRun? ∘ fun s : Subfield => s.code :: s.value.toList) = some := by
    funext s
    rw [Function.comp_apply, Subfield.ofRun?, String.ofList_toList]
  have hdrop : (data tag indicator1 indicator2 ss).contents.toList.drop 2 = ss.encode := by
    rw [toList_contents_data]
    rfl
  rw [subfields, Subfields.ofContents, hdrop, Subfields.delimitedRuns_encode h, List.filterMap_map,
    hrun, List.filterMap_some]

end Field

end Marc21
