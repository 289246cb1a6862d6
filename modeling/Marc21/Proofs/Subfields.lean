import Mathlib.Data.List.Flatten
import Mathlib.Data.List.Infix
import Marc21.Proofs.Field

/-!
What decoding keeps of a text. The runs of a text are the text cut at its delimiters, so they give it back
(`delimitedRuns_join`). Decoding leaves out the empty runs and nothing else (`encode_ofContents`), and
there is an empty one where two delimiters meet or one comes last (`nil_mem_runs_iff`).
-/

namespace Marc21

theorem delimitedRuns_join (s : List Char) :
    (delimitedRuns s).1 ++ (delimitedRuns s).2.flatMap (delimiter :: ·) = s := by
  induction s with
  | nil => rfl
  | cons c s ih =>
    rw [delimitedRuns_cons]
    split
    · next hc =>
      rw [List.nil_append, List.flatMap_cons, List.cons_append, ih, hc]
    · rw [List.cons_append, ih]

theorem not_mem_delimitedRuns (s : List Char) :
    delimiter ∉ (delimitedRuns s).1 ∧ ∀ run ∈ (delimitedRuns s).2, delimiter ∉ run := by
  induction s with
  | nil => exact ⟨List.not_mem_nil, by simp [delimitedRuns]⟩
  | cons c s ih =>
    rw [delimitedRuns_cons]
    split
    · exact ⟨List.not_mem_nil, List.forall_mem_cons.2 ih⟩
    · next hc =>
      refine ⟨?_, ih.2⟩
      rw [List.mem_cons, not_or]
      exact ⟨Ne.symm hc, ih.1⟩

theorem head_eq_nil_iff (s : List Char) : (delimitedRuns s).1 = [] ↔ s = [] ∨ [delimiter] <+: s := by
  cases s with
  | nil => simp [delimitedRuns]
  | cons c s =>
    rw [delimitedRuns_cons]
    split
    · next hc => simp [hc]
    · next hc => simp [List.cons_prefix_cons, Ne.symm hc]

/-- A run is empty where two delimiters meet or one comes last. -/
theorem nil_mem_runs_iff (s : List Char) :
    [] ∈ (delimitedRuns s).2 ↔ [delimiter, delimiter] <:+: s ∨ [delimiter] <:+ s := by
  induction s with
  | nil => simp [delimitedRuns]
  | cons c s ih =>
    rw [delimitedRuns_cons, List.infix_cons_iff, List.suffix_cons_iff, List.cons_prefix_cons]
    split
    · next hc =>
      rw [List.mem_cons, ih, eq_comm, head_eq_nil_iff]
      simp only [hc, List.cons.injEq, true_and]
      tauto
    · next hc =>
      have hne : ¬delimiter = c := Ne.symm hc
      simp only [ih, hne, List.cons.injEq, false_and, false_or]

namespace Subfields

/-- What decodes to a subfield is written back as it was. -/
theorem encode_filterMap_ofRun? (runs : List (List Char)) :
    encode (runs.filterMap Subfield.ofRun?) = (runs.filter (· ≠ [])).flatMap (delimiter :: ·) := by
  induction runs with
  | nil => rfl
  | cons run runs ih =>
    cases run with
    | nil =>
      rw [List.filterMap_cons_none rfl, List.filter_cons_of_neg (by simp), ih]
    | cons code value =>
      have hrun : Subfield.ofRun? (code :: value) = some ⟨code, String.ofList value⟩ := rfl
      rw [List.filterMap_cons_some hrun, List.filter_cons_of_pos (by simp), List.flatMap_cons, ← ih]
      simp [encode, Subfield.encode]

/-- Decoding leaves out what stands before the first delimiter and the empty runs. -/
theorem encode_ofContents (contents : String) : (ofContents contents).encode =
    ((delimitedRuns (contents.toList.drop 2)).2.filter (· ≠ [])).flatMap (delimiter :: ·) :=
  encode_filterMap_ofRun? _

/-- Wherever a subfield is added, those that were there stand as they stood. -/
theorem add_append (ss : Subfields) (code : Char) (value : String) : ∃ before after,
    ss = before ++ after ∧ ss.add code value = before ++ ⟨code, value⟩ :: after :=
  ⟨ss.take (ss.place code), ss.drop (ss.place code), (List.take_append_drop _ _).symm, rfl⟩

/-- All subfields with other codes are left. -/
theorem deleteAll_eq (ss : Subfields) (code : Char) : ss.deleteAll code = ss.filter (·.code ≠ code) :=
  List.filter_congr fun s _ => by simp [bne, beq_eq_decide]

/-- What is decoded has no delimiter left in it. -/
theorem clean_ofContents {contents : String} {s : Subfield} (h : s ∈ ofContents contents) : s.Clean := by
  obtain ⟨run, hrun, hs⟩ := List.mem_filterMap.1 h
  have hclean := (not_mem_delimitedRuns _).2 run hrun
  cases run with
  | nil => cases hs
  | cons code value =>
    cases hs
    rw [List.mem_cons, not_or] at hclean
    exact ⟨Ne.symm hclean.1, by simpa using hclean.2⟩

theorem encode_ofContents_sublist (contents : String) :
    ((ofContents contents).encode).Sublist (contents.toList.drop 2) := by
  have hsuffix : (delimitedRuns (contents.toList.drop 2)).2.flatMap (delimiter :: ·) <:+
      contents.toList.drop 2 := ⟨_, delimitedRuns_join _⟩
  rw [encode_ofContents]
  exact (List.filter_sublist.flatMap _).trans hsuffix.sublist

private theorem filter_flatMap_filter (runs : List (List Char)) :
    ((runs.filter (· ≠ [])).flatMap (delimiter :: ·)).filter (· ≠ delimiter) =
      (runs.flatMap (delimiter :: ·)).filter (· ≠ delimiter) := by
  induction runs with
  | nil => rfl
  | cons run runs ih =>
    by_cases hrun : run = []
    · rw [List.filter_cons_of_neg (by simp [hrun]), ih, hrun]
      simp
    · rw [List.filter_cons_of_pos (by simp [hrun]), List.flatMap_cons, List.flatMap_cons,
        List.filter_append, List.filter_append, ih]

/-- What is lost of the runs is nothing but delimiters. -/
theorem filter_encode_ofContents {contents : String}
    (h : (delimitedRuns (contents.toList.drop 2)).1 = []) :
    (ofContents contents).encode.filter (· ≠ delimiter) =
      (contents.toList.drop 2).filter (· ≠ delimiter) := by
  have hjoin := delimitedRuns_join (contents.toList.drop 2)
  rw [h, List.nil_append] at hjoin
  rw [encode_ofContents, filter_flatMap_filter, hjoin]

private theorem length_flatMap_filter (runs : List (List Char)) :
    ((runs.filter (· ≠ [])).flatMap (delimiter :: ·)).length + runs.count [] =
      (runs.flatMap (delimiter :: ·)).length := by
  induction runs with
  | nil => rfl
  | cons run runs ih =>
    by_cases hrun : run = []
    · rw [List.filter_cons_of_neg (by simp [hrun]), List.flatMap_cons, List.length_append, ← ih, hrun,
        List.count_cons_self, List.length_singleton]
      omega
    · rw [List.filter_cons_of_pos (by simp [hrun]), List.flatMap_cons, List.flatMap_cons,
        List.length_append, List.length_append, ← ih, List.count_cons_of_ne hrun]
      omega

/-- Each empty run costs its delimiter. -/
theorem length_encode_ofContents {contents : String}
    (h : (delimitedRuns (contents.toList.drop 2)).1 = []) :
    (ofContents contents).encode.length + (delimitedRuns (contents.toList.drop 2)).2.count [] =
      (contents.toList.drop 2).length := by
  have hjoin := delimitedRuns_join (contents.toList.drop 2)
  rw [h, List.nil_append] at hjoin
  rw [encode_ofContents, length_flatMap_filter, hjoin]

/-- Subfields are written back as they were if nothing stands before them and no run is empty. -/
theorem encode_ofContents_eq_iff {contents : String}
    (h : (delimitedRuns (contents.toList.drop 2)).1 = []) :
    (ofContents contents).encode = contents.toList.drop 2 ↔
      [] ∉ (delimitedRuns (contents.toList.drop 2)).2 := by
  constructor
  · intro heq
    have hlength := length_encode_ofContents h
    rw [heq] at hlength
    exact List.count_eq_zero.1 (by omega)
  · intro hnil
    have hfilter : (delimitedRuns (contents.toList.drop 2)).2.filter (· ≠ []) =
        (delimitedRuns (contents.toList.drop 2)).2 := by
      rw [List.filter_eq_self]
      intro run hrun
      exact decide_eq_true fun hrun' => hnil (hrun' ▸ hrun)
    have hjoin := delimitedRuns_join (contents.toList.drop 2)
    rw [h, List.nil_append] at hjoin
    rw [encode_ofContents, hfilter, hjoin]

end Subfields

end Marc21
