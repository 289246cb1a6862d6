import Marc21.Proofs.Record.LocalBlock
import Marc21.Proofs.Record.Validity
import Marc21.Proofs.Text.ByteSlice

/-!
Two ways to a subfield. One decodes a whole field: the bytes are searched for delimiters, and each part between one of
them and the next is cut out at their offsets. No other character has the byte of a delimiter in it, so these offsets
are the ends of characters (`delimiterSpans_eq`), no part falls apart, and the parts are the runs (`ofOffsets?_eq`).
The other splits the text and takes the first piece that starts with the code (`splitOn_delimiter`). They find the same
value (`firstSubfield?_decoded`), since a piece is empty where decoding finds no code.
-/

namespace Marc21

open RunCheck (delimiterByte)

/-! ## Delimiters among bytes -/

/-- From each delimiter up to the next one, and from the last one up to the end. -/
def delimiterSpans (bs : Bytes) : List Span :=
  -- The first of these ranges holds what stands before all delimiters.
  (spansAt 0 (bs.idxsOf delimiterByte) bs.length).tail

/-- The text between the delimiter that a range starts with and the end of the range. -/
def runAt? (text : String) (s : Span) : Option String :=
  if s.start < s.stop then ByteSlice.slice? text (s.start + 1) s.stop else none

/-- Decoding that stops at a part that begins or ends within a character. -/
def Subfields.ofOffsets? (contents : String) : Option Subfields :=
  let text := String.ofList (contents.toList.drop 2)
  ((delimiterSpans (Utf8.encode text)).mapM (runAt? text)).map
    (List.filterMap fun run => Subfield.ofRun? run.toList)

/-- Where runs lie that stand one behind the other, each behind a delimiter. -/
def runSpans (start : Nat) : List (List Char) → List Span
  | [] => []
  | run :: runs =>
    let stop := start + 1 + ByteSlice.width run
    ⟨start, stop⟩ :: runSpans stop runs

section

variable {head : List Char} {runs : List (List Char)}

theorem idxsOf_append_of_not_mem (h : delimiter ∉ head) (bs : Bytes) (start : Nat) :
    (head.flatMap Utf8.encodeChar ++ bs).idxsOf delimiterByte start =
      bs.idxsOf delimiterByte (start + ByteSlice.width head) := by
  have hnone : (head.flatMap Utf8.encodeChar).idxsOf delimiterByte start = [] := by
    rw [List.idxsOf_eq_nil_iff]
    intro b hb
    obtain ⟨c, hc, hbc⟩ := List.mem_flatMap.1 hb
    rw [beq_eq_false_iff_ne]
    rintro rfl
    exact h (RunCheck.eq_delimiter_of_mem hbc ▸ hc)
  rw [List.idxsOf_append, hnone, List.nil_append, ByteSlice.width]

/-- A text without a delimiter and then runs: one range for the text and one for each run. -/
theorem spansAt_idxsOf (hhead : delimiter ∉ head) (hruns : ∀ run ∈ runs, delimiter ∉ run) (start first : Nat) :
    let bs := (head ++ runs.flatMap (delimiter :: ·)).flatMap Utf8.encodeChar
    spansAt start (bs.idxsOf delimiterByte first) (first + bs.length) =
      ⟨start, first + ByteSlice.width head⟩ :: runSpans (first + ByteSlice.width head) runs := by
  induction runs generalizing head start first with
  | nil =>
    have hnone := idxsOf_append_of_not_mem hhead [] first
    rw [List.append_nil, List.idxsOf_nil] at hnone
    simp only [List.flatMap_nil, List.append_nil, hnone, spansAt_nil, runSpans]
    rfl
  | cons run runs ih =>
    intro bs
    obtain ⟨hrun, hruns⟩ := List.forall_mem_cons.1 hruns
    let rest := (run ++ runs.flatMap (delimiter :: ·)).flatMap Utf8.encodeChar
    have hbytes : bs = head.flatMap Utf8.encodeChar ++ delimiterByte :: rest := by
      have hdelimiter : Utf8.encodeChar delimiter = [delimiterByte] := by decide
      simp only [bs, rest, List.flatMap_append, List.flatMap_cons, hdelimiter, List.cons_append, List.nil_append]
    have hstop : first + bs.length = first + ByteSlice.width head + 1 + rest.length := by
      rw [hbytes, List.length_append, List.length_cons, ByteSlice.width]
      omega
    rw [hstop, hbytes, idxsOf_append_of_not_mem hhead, List.idxsOf_cons, if_pos (beq_self_eq_true _),
      spansAt_cons, ih hrun hruns]
    rfl

/-- The delimiters among the bytes of a text are those that its runs start with. -/
theorem delimiterSpans_eq (s : List Char) :
    delimiterSpans (s.flatMap Utf8.encodeChar) =
      runSpans (ByteSlice.width (delimitedRuns s).1) (delimitedRuns s).2 := by
  obtain ⟨hhead, hruns⟩ := not_mem_delimitedRuns s
  have hspans := spansAt_idxsOf hhead hruns 0 0
  rw [delimitedRuns_join] at hspans
  simp only [Nat.zero_add] at hspans
  rw [delimiterSpans, hspans, List.tail_cons]

/-- Each of the ranges gives its run, whatever stands in front of them. -/
theorem mapM_runAt? (front : List Char) (runs : List (List Char)) :
    (runSpans (ByteSlice.width front) runs).mapM
        (runAt? (String.ofList (front ++ runs.flatMap (delimiter :: ·)))) =
      some (runs.map String.ofList) := by
  induction runs generalizing front with
  | nil => rfl
  | cons run runs ih =>
    have hone : delimiter.utf8Size = 1 := by decide
    have hwidth : ByteSlice.width (front ++ [delimiter]) = ByteSlice.width front + 1 := by
      rw [ByteSlice.width_append, ByteSlice.width_cons, ByteSlice.width_nil, hone]
    have htext : front ++ (run :: runs).flatMap (delimiter :: ·) =
        (front ++ [delimiter]) ++ (run ++ runs.flatMap (delimiter :: ·)) := by
      rw [List.flatMap_cons, List.append_assoc]
      rfl
    have hrun := ByteSlice.slice?_append (front ++ [delimiter]) run (runs.flatMap (delimiter :: ·))
    have hrest := ih (front ++ [delimiter] ++ run)
    rw [ByteSlice.width_append, hwidth, List.append_assoc] at hrest
    rw [hwidth] at hrun
    rw [htext, runSpans, List.mapM_cons, runAt?, if_pos (by dsimp only; omega), hrun, hrest]
    rfl

end

/-- Decoding by offsets never stops, and it comes to the same subfields. -/
theorem Subfields.ofOffsets?_eq (contents : String) : ofOffsets? contents = some (ofContents contents) := by
  have hparts := mapM_runAt? (delimitedRuns (contents.toList.drop 2)).1 (delimitedRuns (contents.toList.drop 2)).2
  rw [delimitedRuns_join] at hparts
  have hread : (fun run : String => Subfield.ofRun? run.toList) ∘ String.ofList = Subfield.ofRun? := by
    funext run
    rw [Function.comp_apply, String.toList_ofList]
  rw [ofOffsets?, Utf8.encode_ofList, delimiterSpans_eq, hparts, Option.map_some, List.filterMap_map, hread,
    ofContents]

/-! ## Pieces of a text -/

/-- Splitting gives what stands before the first delimiter, and then the runs. -/
theorem splitOn_delimiter (s : List Char) :
    s.splitOn delimiter = (delimitedRuns s).1 :: (delimitedRuns s).2 := by
  induction s with
  | nil => rfl
  | cons c s ih =>
    rw [List.splitOn, List.splitOnP_cons_eq_if_modifyHead, delimitedRuns_cons]
    rw [List.splitOn] at ih
    by_cases hc : c = delimiter
    · simp [hc, ih]
    · simp [hc, ih]

theorem Subfields.find?_eq_none_of_absent {ss : Subfields} {code : Char} (h : ∀ s ∈ ss, s.code ≠ code) :
    ss.find? (·.code == code) = none := by
  rw [List.find?_eq_none]
  exact fun s hs => by simpa using h s hs

namespace Field

variable (f : Field) (code : Char)

/-- A piece has the value under the code if it starts with the code. -/
theorem firstSubfield?_eq_pieces : f.firstSubfield? code =
    (((f.contents.toList.drop 2).splitOn delimiter).tail.findSome? (·.dropPrefix? [code])).map String.ofList := by
  rw [splitOn_delimiter, List.tail_cons, List.map_findSome?, firstSubfield?]
  congr 1
  funext run
  cases run with
  | nil => rfl
  | cons c value =>
    by_cases hc : c = code
    · simp [List.dropPrefix?, hc]
    · simp [List.dropPrefix?, hc]

/-- Looking among the runs or among the subfields that are made of them comes to the same value. -/
theorem firstSubfield?_eq : f.firstSubfield? code = f.subfields.first? code := by
  rw [firstSubfield?, subfields, Subfields.ofContents]
  induction (delimitedRuns (f.contents.toList.drop 2)).2 with
  | nil => rfl
  | cons run runs ih =>
    cases run with
    | nil => exact ih
    | cons c value =>
      have hrun : Subfield.ofRun? (c :: value) = some ⟨c, String.ofList value⟩ := rfl
      rw [List.findSome?_cons, List.filterMap_cons_some hrun, Subfields.first?, List.find?_cons]
      by_cases hc : c = code
      · simp only [hc, if_true, beq_self_eq_true, Option.map_some]
      · simp only [hc, if_false, beq_eq_false_iff_ne.2 hc]
        exact ih

/-- No subfield has the delimiter for its code. -/
theorem firstSubfield?_delimiter : f.firstSubfield? delimiter = none := by
  have habsent : ∀ s ∈ f.subfields, s.code ≠ delimiter := fun s hs => (Subfields.clean_ofContents hs).code_ne
  rw [firstSubfield?_eq, Subfields.first?, Subfields.find?_eq_none_of_absent habsent, Option.map_none]

/-! ## Main result -/

/-- **Looking a subfield up and decoding the field agree**, whatever the contents are and whatever the code. Decoding
goes by the offsets of delimiters among the bytes and always comes to an end. Looking up splits the text, passes over
what stands before the first delimiter, and takes the first piece that starts with the code. Both find the same value
or none, and none under the delimiter itself. -/
theorem firstSubfield?_decoded (f : Field) (code : Char) :
    Subfields.ofOffsets? f.contents = some f.subfields ∧
    f.firstSubfield? code =
      (((f.contents.toList.drop 2).splitOn delimiter).tail.findSome? (·.dropPrefix? [code])).map String.ofList ∧
    f.firstSubfield? code = f.subfields.first? code ∧ f.firstSubfield? delimiter = none :=
  ⟨Subfields.ofOffsets?_eq f.contents, f.firstSubfield?_eq_pieces code, f.firstSubfield?_eq code,
    f.firstSubfield?_delimiter⟩

end Field

end Marc21
