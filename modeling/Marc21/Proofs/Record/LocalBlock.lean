import Marc21.Record.LocalBlock
import Marc21.Proofs.Record.Run

/-!
Where local blocks lie. The blocks lie side by side and make up the run of `LOK` fields. Within a block the
local tags do not fall, and from one block to the next they do (`localBlocks_spec`). Contents that are too
short for a local tag, or in which a character stands across its ends, have an empty one, which comes before
all others.
-/

namespace Marc21

/-- Ranges without a gap between them, none of them empty, up to `stop`. -/
inductive Tiles (stop : Nat) : Nat → List Span → Prop where
  | nil : Tiles stop stop []
  | cons {s : Span} {spans : List Span} (hne : s.start < s.stop) (rest : Tiles stop s.stop spans) :
      Tiles stop s.start (s :: spans)

namespace Tiles

variable {start stop : Nat} {spans : List Span}

theorem ne_nil (h : Tiles stop start spans) (hlt : start < stop) : spans ≠ [] := by
  cases h with
  | nil => exact absurd hlt (Nat.lt_irrefl _)
  | cons => exact List.cons_ne_nil _ _

theorem le_start_of_mem (h : Tiles stop start spans) : ∀ s ∈ spans, start ≤ s.start := by
  induction h with
  | nil => simp
  | cons hne rest ih =>
    rw [List.forall_mem_cons]
    refine ⟨Nat.le_refl _, fun s hs => ?_⟩
    exact Nat.le_trans (Nat.le_of_lt hne) (ih s hs)

theorem lt_of_mem (h : Tiles stop start spans) : ∀ s ∈ spans, s.start < s.stop := by
  induction h with
  | nil => simp
  | cons hne rest ih => exact List.forall_mem_cons.2 ⟨hne, ih⟩

theorem start_le_stop (h : Tiles stop start spans) : start ≤ stop := by
  induction h with
  | nil => exact Nat.le_refl _
  | cons hne _ ih => exact Nat.le_trans (Nat.le_of_lt hne) ih

theorem stop_le_of_mem (h : Tiles stop start spans) : ∀ s ∈ spans, s.stop ≤ stop := by
  induction h with
  | nil => simp
  | cons _ rest ih => exact List.forall_mem_cons.2 ⟨rest.start_le_stop, ih⟩

/-- Only the first range starts where all of them start. -/
theorem lt_start_of_mem_tail (h : Tiles stop start spans) : ∀ s ∈ spans.tail, start < s.start := by
  cases h with
  | nil => simp
  | cons hne rest => exact fun s hs => Nat.lt_of_lt_of_le hne (rest.le_start_of_mem s hs)

end Tiles

/-- The ranges that begin at `start` and at each of the cuts, and end at the next one or at `stop`. -/
def spansAt (start : Nat) (cuts : List Nat) (stop : Nat) : List Span :=
  List.zipWith Span.mk (start :: cuts) (cuts ++ [stop])

@[simp] theorem spansAt_nil (start stop : Nat) : spansAt start [] stop = [⟨start, stop⟩] := rfl

@[simp] theorem spansAt_cons (start cut : Nat) (cuts : List Nat) (stop : Nat) :
    spansAt start (cut :: cuts) stop = ⟨start, cut⟩ :: spansAt cut cuts stop := rfl

theorem map_start_spansAt (start : Nat) (cuts : List Nat) (stop : Nat) :
    (spansAt start cuts stop).map Span.start = start :: cuts := by
  induction cuts generalizing start with
  | nil => rfl
  | cons cut cuts ih => rw [spansAt_cons, List.map_cons, ih]

/-! ## Local tags -/

/-- From this field to the next the local tag does not fall. -/
def RisesAfter (fs : List Field) (i : Nat) : Prop :=
  ∃ f g, fs[i]? = some f ∧ fs[i + 1]? = some g ∧ f.localTag ≤ g.localTag

/-- From this field to the next the local tag falls. -/
def FallsAfter (fs : List Field) (i : Nat) : Prop :=
  ∃ f g, fs[i]? = some f ∧ fs[i + 1]? = some g ∧ g.localTag < f.localTag

/-- The places at which a local tag is smaller than the one before, counted from `i`. -/
def falls (i : Nat) (before : String) : List String → List Nat
  | [] => []
  | here :: rest => if here < before then i :: falls (i + 1) here rest else falls (i + 1) here rest

theorem map_add_falls (k i : Nat) (before : String) (rest : List String) :
    (falls i before rest).map (k + ·) = falls (k + i) before rest := by
  induction rest generalizing i before with
  | nil => rfl
  | cons here rest ih =>
    unfold falls
    split
    · rw [List.map_cons, ih, Nat.add_assoc]
    · rw [ih, Nat.add_assoc]

private theorem filterMap_zip_eq_falls (i : Nat) (before : String) (rest : List String) :
    ((((before :: rest).zip rest).zipIdx i).filterMap fun p =>
      if p.1.2 < p.1.1 then some p.2 else none) = falls i before rest := by
  induction rest generalizing i before with
  | nil => rfl
  | cons here rest ih =>
    rw [List.zip_cons_cons, List.zipIdx_cons, List.filterMap_cons, ih, falls]
    split <;> simp_all

theorem blockOffsets_cons (f : Field) (fs : List Field) :
    Record.blockOffsets (f :: fs) = 0 :: falls 1 f.localTag (fs.map Field.localTag) :=
  congrArg (0 :: ·) (filterMap_zip_eq_falls 1 _ _)

/-- Ranges of fields from `start` up to `stop` that end exactly where a local tag falls. -/
structure Blocks (fs : List Field) (start stop : Nat) (spans : List Span) : Prop where
  tiles : Tiles stop start spans
  within : ∀ s ∈ spans, ∀ i, s.start ≤ i → i + 1 < s.stop → RisesAfter fs i
  between : ∀ s ∈ spans, start < s.start → ∃ i, i + 1 = s.start ∧ FallsAfter fs i

/-- What a scan finds behind the first `i` fields, if it is in a block that began at `start`. -/
theorem blocks_spansAt {fs : List Field} {start i : Nat} {f : Field} {rest after : List Field}
    (hlt : start < i) (hbefore : fs[i - 1]? = some f) (hrest : fs.drop i = rest ++ after)
    (hrises : ∀ j, start ≤ j → j + 1 < i → RisesAfter fs j) :
    Blocks fs start (i + rest.length)
      (spansAt start (falls i f.localTag (rest.map Field.localTag)) (i + rest.length)) := by
  induction rest generalizing start i f with
  | nil =>
    refine ⟨.cons (s := ⟨start, i⟩) hlt .nil, ?_, ?_⟩
    · exact List.forall_mem_singleton.2 hrises
    · exact List.forall_mem_singleton.2 fun h => absurd h (Nat.lt_irrefl start)
  | cons g rest ih =>
    have hhere : fs[i]? = some g := by
      rw [← List.head?_drop, hrest]
      rfl
    have hbehind : fs.drop (i + 1) = rest ++ after := by
      rw [← List.tail_drop, hrest]
      rfl
    have hback : i - 1 + 1 = i := by omega
    have hlength : i + (g :: rest).length = i + 1 + rest.length := by
      rw [List.length_cons]
      omega
    rw [List.map_cons, falls, hlength]
    split
    · next hfalls =>
      -- The block ends here, and the next one has one field so far.
      obtain ⟨htiles, hwithin, hbetween⟩ := ih (Nat.lt_succ_self i) hhere hbehind (by omega)
      refine ⟨.cons (s := ⟨start, i⟩) hlt htiles, ?_, ?_⟩
      · exact List.forall_mem_cons.2 ⟨hrises, hwithin⟩
      · refine List.forall_mem_cons.2 ⟨fun h => absurd h (Nat.lt_irrefl start), fun s hs _ => ?_⟩
        rcases Nat.eq_or_lt_of_le (htiles.le_start_of_mem s hs) with heq | hlater
        · exact ⟨i - 1, hback.trans heq, f, g, hbefore, by rwa [hback], hfalls⟩
        · exact hbetween s hs hlater
    · next hstays =>
      apply ih (Nat.lt_succ_of_lt hlt) hhere hbehind
      intro j hj hji
      rcases Nat.eq_or_lt_of_le (Nat.le_of_lt_succ hji) with heq | hlt
      · obtain rfl : j = i - 1 := by omega
        exact ⟨f, g, hbefore, by rwa [hback], String.not_lt.1 hstays⟩
      · exact hrises j hj hlt

namespace Record

variable (r : Record)

/-- The blocks of a record that has a `LOK` field are what a scan of the fields behind it finds. -/
theorem localBlocks_of_run {f : Field} {run : List Field}
    (hrun : r.fieldsWithTag Tag.localBlock = f :: run) :
    let span := r.tagSpan Tag.localBlock
    r.localBlocks =
      spansAt span.start (falls (span.start + 1) f.localTag (run.map Field.localTag)) span.stop := by
  intro span
  rw [localBlocks, localBlockStarts, hrun, blockOffsets_cons, List.map_cons, map_add_falls]
  rfl

theorem localBlocks_of_no_run (hrun : r.fieldsWithTag Tag.localBlock = []) : r.localBlocks = [] := by
  rw [localBlocks, localBlockStarts, hrun]
  rfl

theorem scan_localBlocks :
    Blocks r.fields (r.tagSpan Tag.localBlock).start (r.tagSpan Tag.localBlock).stop r.localBlocks := by
  have hstop := r.tagSpan_stop Tag.localBlock
  have hfields := r.drop_tagSpan Tag.localBlock
  generalize hspan : r.tagSpan Tag.localBlock = span at hstop hfields ⊢
  cases hrun : r.fieldsWithTag Tag.localBlock with
  | nil =>
    rw [hrun, List.length_nil, Nat.add_zero] at hstop
    rw [r.localBlocks_of_no_run hrun, hstop]
    exact ⟨.nil, by simp, by simp⟩
  | cons f run =>
    rw [hrun] at hstop hfields
    have hfirst : r.fields[span.start]? = some f := by
      rw [← List.head?_drop, hfields]
      rfl
    have hbehind : r.fields.drop (span.start + 1) = run ++ r.fields.drop span.stop := by
      rw [← List.tail_drop, hfields]
      rfl
    have hlength : span.start + 1 + run.length = span.stop := by
      rw [hstop, List.length_cons]
      omega
    have hscan := blocks_spansAt (Nat.lt_succ_self span.start) hfirst hbehind (by omega)
    rwa [hlength, ← hspan, ← r.localBlocks_of_run hrun, hspan] at hscan

theorem map_start_localBlocks : r.localBlocks.map Span.start = r.localBlockStarts := by
  rw [localBlocks]
  cases r.localBlockStarts with
  | nil => rfl
  | cons start cuts => exact map_start_spansAt start cuts _

theorem localBlocks_eq_nil_iff : r.localBlocks = [] ↔ ∀ f ∈ r.fields, f.tag ≠ Tag.localBlock := by
  rw [← fieldsWithTag_eq_nil_iff]
  constructor
  · intro hnil
    by_contra hrun
    have hlt : (r.tagSpan Tag.localBlock).start < (r.tagSpan Tag.localBlock).stop := by
      rw [tagSpan_stop]
      exact Nat.lt_add_of_pos_right (List.length_pos_iff.2 hrun)
    exact r.scan_localBlocks.tiles.ne_nil hlt hnil
  · exact r.localBlocks_of_no_run

/-! ## Main result -/

/-- **Local blocks.** The blocks of a record are ranges without a gap that make up the run of `LOK` fields, and
there is none only if there is no such field. Within a block the local tags do not fall from field to field,
and where a later block starts they do. The list of starts is that of the blocks. -/
theorem localBlocks_spec :
    let span := r.tagSpan Tag.localBlock
    Tiles span.stop span.start r.localBlocks ∧
      (r.localBlocks = [] ↔ ∀ f ∈ r.fields, f.tag ≠ Tag.localBlock) ∧
      (∀ s ∈ r.localBlocks, ∀ i, s.start ≤ i → i + 1 < s.stop → RisesAfter r.fields i) ∧
      (∀ s ∈ r.localBlocks.tail, ∃ i, i + 1 = s.start ∧ FallsAfter r.fields i) ∧
      r.localBlockStarts = r.localBlocks.map Span.start := by
  obtain ⟨htiles, hwithin, hbetween⟩ := r.scan_localBlocks
  refine ⟨htiles, r.localBlocks_eq_nil_iff, hwithin, ?_, r.map_start_localBlocks.symm⟩
  exact fun s hs => hbetween s (List.mem_of_mem_tail hs) (htiles.lt_start_of_mem_tail s hs)

/-- The third contents are too short for a local tag, and in the fourth a character stands across its start. -/
example : (ofParts (Leader.fresh .languageMaterial .monographOrItem)
    (["  \x1F0852", "  \x1F0002", "x", "  \x1Fé00", "  \x1F0000"].map fun contents =>
      ⟨Tag.localBlock, contents⟩)).localBlocks = [⟨0, 1⟩, ⟨1, 2⟩, ⟨2, 5⟩] := by decide +kernel

end Record

end Marc21
