import Mathlib.Data.List.SplitBy
import Marc21.Proofs.Record.LocalBlock
import Marc21.Proofs.Record.Deletion

/-!
What deleting local blocks does to the others. Where a block ends is not written down: the blocks of a record are
what its run of `LOK` fields falls into where a local tag is smaller than the one before (`blocks_eq_splitBy`). The
fields of the blocks that stay are kept (`fieldsWithTag_deleteLocalBlocks`), so the blocks found afterwards are those,
but two of them that have become neighbours are one block unless the local tag falls between them
(`blocks_deleteLocalBlocks`).
-/

namespace Marc21

/-- From this field to the next one the local tag does not fall. -/
def staysWith (f g : Field) : Bool := f.localTag ≤ g.localTag

/-- From the last field of one block to the first of another the local tag does not fall, so that side by side
the second would continue the first. -/
def runsInto (b c : List Field) : Bool :=
  b.getLast?.all fun f => c.head?.all fun g => staysWith f g

theorem staysWith_eq_false_iff {f g : Field} : staysWith f g = false ↔ g.localTag < f.localTag := by
  rw [staysWith, decide_eq_false_iff_not, String.not_le]

theorem runsInto_iff {b c : List Field} :
    runsInto b c = true ↔ ∀ f ∈ b.getLast?, ∀ g ∈ c.head?, staysWith f g = true := by
  rw [runsInto]
  cases b.getLast? <;> cases c.head? <;> simp

theorem runsInto_eq_false_iff {b c : List Field} :
    runsInto b c = false ↔ ∃ hb hc, staysWith (b.getLast hb) (c.head hc) = false := by
  cases b using List.reverseRecOn with
  | nil => simp [runsInto]
  | append_singleton b f => cases c <;> simp [runsInto]

/-- Of the second block only the first local tag counts. -/
theorem runsInto_congr {b c d : List Field}
    (h : c.head?.map Field.localTag = d.head?.map Field.localTag) : runsInto b c = runsInto b d := by
  have htag (e : List Field) : runsInto b e =
      b.getLast?.all fun f => (e.head?.map Field.localTag).all fun tag => decide (f.localTag ≤ tag) := by
    simp only [Option.all_map]
    rfl
  rw [htag, htag, h]

/-! ## Blocks as lists of fields -/

/-- The ranges that a scan finds, as lists of fields. `seen` is the block so far, which began at `start`. -/
theorem map_fieldsIn_spansAt {fs : List Field} {start i : Nat} {f : Field} {seen rest after : List Field}
    (hlast : seen.getLast? = some f) (hchain : seen.IsChain fun f g => staysWith f g)
    (hlength : start + seen.length = i) (hfs : fs.drop start = seen ++ (rest ++ after)) :
    (spansAt start (falls i f.localTag (rest.map Field.localTag)) (i + rest.length)).map (fieldsIn fs) =
      (seen ++ rest).splitBy staysWith := by
  induction rest generalizing start i f seen with
  | nil =>
    have hne : seen ≠ [] := List.ne_nil_of_mem (List.mem_of_getLast? hlast)
    rw [List.map_nil, falls, List.append_nil, List.splitBy_of_isChain hne hchain]
    exact congrArg (fun b => [b]) (fieldsIn_of_drop hfs hlength).1
  | cons g rest ih =>
    have hcount : i + (g :: rest).length = i + 1 + rest.length := by
      rw [List.length_cons]
      omega
    rw [List.map_cons, falls, hcount]
    split
    · next hfalls =>
      -- The block ends here, and the next one has one field so far.
      obtain ⟨hseen, hbehind⟩ := fieldsIn_of_drop hfs hlength
      have hne : seen ≠ [] := List.ne_nil_of_mem (List.mem_of_getLast? hlast)
      have hends : ∀ x ∈ seen.getLast?, staysWith x g = false := by
        rw [hlast]
        rintro x ⟨⟩
        exact staysWith_eq_false_iff.2 hfalls
      rw [spansAt_cons, List.map_cons, hseen, List.splitBy_append_cons _ hends,
        List.splitBy_of_isChain hne hchain, List.singleton_append]
      congr 1
      exact ih rfl (List.isChain_singleton g) rfl hbehind
    · next hstays =>
      have hmore : (seen ++ [g]).IsChain fun f g => staysWith f g := by
        rw [List.isChain_append]
        refine ⟨hchain, List.isChain_singleton g, ?_⟩
        rw [hlast]
        rintro x ⟨⟩ y ⟨⟩
        exact decide_eq_true (String.not_lt.1 hstays)
      rw [List.append_cons]
      refine ih List.getLast?_concat hmore ?_ ?_
      · rw [List.length_append, ← Nat.add_assoc, hlength]
        rfl
      · rw [hfs, List.append_assoc]
        rfl

/-- Blocks that are put one behind the other fall into groups: one block runs into the next within a group, and
does not from one group to the next. -/
theorem splitBy_flatten_blocks {bs : List (List Field)} (hne : [] ∉ bs)
    (hchain : ∀ b ∈ bs, b.IsChain fun f g => staysWith f g) :
    bs.flatten.splitBy staysWith = (bs.splitBy runsInto).map List.flatten := by
  have hmem {group : List (List Field)} (hgroup : group ∈ bs.splitBy runsInto) {b : List Field}
      (hb : b ∈ group) : b ∈ bs := by
    rw [← List.flatten_splitBy runsInto bs]
    exact List.mem_flatten_of_mem hgroup hb
  rw [List.splitBy_eq_iff]
  refine ⟨?_, ?_, ?_, ?_⟩
  · rw [← List.flatten_flatten, List.flatten_splitBy]
  · rw [List.mem_map]
    rintro ⟨group, hgroup, hnil⟩
    obtain ⟨b, hb⟩ := List.exists_mem_of_ne_nil group (List.ne_nil_of_mem_splitBy hgroup)
    rw [List.flatten_eq_nil_iff] at hnil
    exact hne (hnil b hb ▸ hmem hgroup hb)
  · rw [List.forall_mem_map]
    intro group hgroup
    rw [List.isChain_flatten fun h => hne (hmem hgroup h)]
    refine ⟨fun b hb => hchain b (hmem hgroup hb), ?_⟩
    exact (List.isChain_of_mem_splitBy hgroup).imp fun b c h => runsInto_iff.1 h
  · rw [List.isChain_map]
    refine (List.isChain_getLast_head_splitBy runsInto bs).imp ?_
    rintro group next ⟨hgroup, hnext, hfalls⟩
    obtain ⟨hb, hc, hfalls⟩ := runsInto_eq_false_iff.1 hfalls
    rw [List.getLast_getLast_eq_getLast_flatten, List.head_head_eq_head_flatten] at hfalls
    exact ⟨_, _, hfalls⟩

namespace Tiles

variable {start stop : Nat} {spans : List Span}

/-- No index lies in two of the ranges. -/
theorem eq_of_mem (h : Tiles stop start spans) {s t : Span} (hs : s ∈ spans) (ht : t ∈ spans) {i : Nat}
    (his : s.start ≤ i ∧ i < s.stop) (hit : t.start ≤ i ∧ i < t.stop) : s = t := by
  induction h with
  | nil => cases hs
  | cons hne rest ih =>
    have hbehind := rest.le_start_of_mem
    rcases List.mem_cons.1 hs with rfl | hs' <;> rcases List.mem_cons.1 ht with rfl | ht'
    · rfl
    · have := hbehind t ht'
      omega
    · have := hbehind s hs'
      omega
    · exact ih hs' ht'

/-- Of ranges without a gap between them some are wanted, and then it is their fields that are. -/
theorem fieldsAt_fieldsIn (h : Tiles stop start spans) {fs : List Field} (hstop : stop ≤ fs.length)
    {wanted : Nat → Prop} [DecidablePred wanted] {keep : Span → Bool}
    (hwanted : ∀ s ∈ spans, ∀ i, s.start ≤ i → i < s.stop → (wanted i ↔ keep s = true)) :
    fieldsAt wanted start (fieldsIn fs ⟨start, stop⟩) =
      ((spans.filter keep).map (fieldsIn fs)).flatten := by
  induction h with
  | nil => simp [fieldsIn, fieldsAt]
  | @cons s spans hne rest ih =>
    obtain ⟨hs, hwanted⟩ := List.forall_mem_cons.1 hwanted
    have hend : s.stop ≤ stop := rest.start_le_stop
    have hparts : fieldsIn fs ⟨s.start, stop⟩ = fieldsIn fs s ++ fieldsIn fs ⟨s.stop, stop⟩ :=
      (fieldsIn_append (Nat.le_of_lt hne) hend).symm
    have hlength := length_fieldsIn (Nat.le_trans hend hstop)
    have hbehind : s.start + (fieldsIn fs s).length = s.stop := by omega
    rw [hparts, fieldsAt_append, hbehind, ih hwanted]
    cases hkeep : keep s with
    | true =>
      rw [List.filter_cons_of_pos hkeep, List.map_cons, List.flatten_cons, fieldsAt_of_forall]
      exact fun i hi hlt => (hs i hi (by omega)).2 hkeep
    | false =>
      rw [List.filter_cons_of_neg (by simp [hkeep]), fieldsAt_of_forall_not, List.nil_append]
      exact fun i hi hlt hi' => by simp [(hs i hi (by omega)).1 hi'] at hkeep

end Tiles

namespace Record

variable (r : Record) (starts : List Nat)

/-- The fields of each local block. -/
def blocks : List (List Field) := r.localBlocks.map (fieldsIn r.fields)

/-- The local blocks that start at one of the given indices. -/
def blocksAt : List Span := r.localBlocks.filter fun b => starts.contains b.start

/-- The fields of each local block that starts at none of the given indices. -/
def blocksBut : List (List Field) :=
  (r.localBlocks.filter fun b => !starts.contains b.start).map (fieldsIn r.fields)

/-- The local blocks are what the run of `LOK` fields falls into where a local tag falls. -/
theorem blocks_eq_splitBy : r.blocks = (r.fieldsWithTag Tag.localBlock).splitBy staysWith := by
  have hfields := r.drop_tagSpan Tag.localBlock
  have hstop := r.tagSpan_stop Tag.localBlock
  cases hrun : r.fieldsWithTag Tag.localBlock with
  | nil => rw [blocks, r.localBlocks_of_no_run hrun, List.map_nil, List.splitBy_nil]
  | cons f run =>
    rw [hrun] at hfields hstop
    have hlength :
        (r.tagSpan Tag.localBlock).start + 1 + run.length = (r.tagSpan Tag.localBlock).stop := by
      rw [hstop, List.length_cons]
      omega
    rw [blocks, r.localBlocks_of_run hrun, ← hlength]
    exact map_fieldsIn_spansAt rfl (List.isChain_singleton f) rfl hfields

theorem blocksBut_sublist : (r.blocksBut starts).Sublist r.blocks := List.filter_sublist.map _

/-! ## What is left -/

theorem tagSpan_stop_le (tag : Tag) : (r.tagSpan tag).stop ≤ r.fields.length := by
  have hstart : (r.tagSpan tag).start ≤ r.fields.length := List.findIdx_le_length
  have hlength := congrArg List.length (r.drop_tagSpan tag)
  rw [List.length_drop, List.length_append, List.length_drop] at hlength
  have hstop := r.tagSpan_stop tag
  omega

theorem lt_of_mem_blocksAt : ∀ s ∈ r.blocksAt starts, s.start < s.stop :=
  fun s hs => r.scan_localBlocks.tiles.lt_of_mem s (List.mem_filter.1 hs).1

theorem stop_le_of_mem_blocksAt : ∀ s ∈ r.blocksAt starts, s.stop ≤ r.fields.length := fun s hs =>
  Nat.le_trans (r.scan_localBlocks.tiles.stop_le_of_mem s (List.mem_filter.1 hs).1) (r.tagSpan_stop_le _)

/-- The ranges that go have gaps between them. -/
theorem separate_doomed : Separate (coalesce (r.blocksAt starts)) :=
  separate_coalesce (r.lt_of_mem_blocksAt starts)

theorem stop_le_of_mem_doomed : ∀ s ∈ coalesce (r.blocksAt starts), s.stop ≤ r.fields.length :=
  stop_le_of_mem_coalesce (r.lt_of_mem_blocksAt starts) (r.stop_le_of_mem_blocksAt starts)

/-- The fields of the listed blocks go, and all others stay. -/
theorem fields_deleteLocalBlocks : (r.deleteLocalBlocks starts).fields =
    fieldsAt (fun i => ¬Covered (r.blocksAt starts) i) 0 r.fields := by
  have hfields := fields_foldr_deleteSpan (r.separate_doomed starts) (r.stop_le_of_mem_doomed starts)
  refine Eq.trans hfields ?_
  exact fieldsAt_congr fun i _ _ => not_congr (covered_coalesce (r.lt_of_mem_blocksAt starts) i)

/-- In front of the blocks and behind them nothing changes. -/
theorem fields_deleteLocalBlocks_eq : (r.deleteLocalBlocks starts).fields =
    r.fields.take (r.tagSpan Tag.localBlock).start ++
      ((r.blocksBut starts).flatten ++ r.fields.drop (r.tagSpan Tag.localBlock).stop) := by
  have htiles := r.scan_localBlocks.tiles
  have hstop := r.tagSpan_stop_le Tag.localBlock
  have houtside {i : Nat} (h : i < (r.tagSpan Tag.localBlock).start ∨ (r.tagSpan Tag.localBlock).stop ≤ i) :
      ¬Covered (r.blocksAt starts) i := by
    rintro ⟨s, hs, hle, hlt⟩
    have hmem := (List.mem_filter.1 hs).1
    have := htiles.le_start_of_mem s hmem
    have := htiles.stop_le_of_mem s hmem
    omega
  rw [fields_deleteLocalBlocks, fieldsAt_around htiles.start_le_stop hstop, fieldsAt_of_forall,
    fieldsAt_of_forall (k := (r.tagSpan Tag.localBlock).stop)]
  · congr 2
    refine htiles.fieldsAt_fieldsIn hstop fun s hs i hi hlt => ?_
    rw [Bool.not_eq_true', ← Bool.not_eq_true, not_iff_not]
    constructor
    · rintro ⟨t, ht, hit⟩
      obtain ⟨htmem, hlisted⟩ := List.mem_filter.1 ht
      obtain rfl := htiles.eq_of_mem hs htmem ⟨hi, hlt⟩ hit
      exact hlisted
    · intro hlisted
      exact ⟨s, List.mem_filter.2 ⟨hs, hlisted⟩, hi, hlt⟩
  · exact fun i hi _ => houtside (.inr hi)
  · intro i _ hi
    rw [List.length_take] at hi
    exact houtside (.inl (by omega))

theorem flatten_blocks : r.blocks.flatten = r.fieldsWithTag Tag.localBlock := by
  rw [blocks_eq_splitBy, List.flatten_splitBy]

/-- In a record in order the run of `LOK` fields is then that of the blocks that are left. -/
theorem fieldsWithTag_deleteLocalBlocks {r : Record} (h : Ordered r.fields) (starts : List Nat) :
    (r.deleteLocalBlocks starts).fieldsWithTag Tag.localBlock = (r.blocksBut starts).flatten := by
  have hordered : Ordered (r.deleteLocalBlocks starts).fields := by
    rw [fields_deleteLocalBlocks]
    exact h.sublist (fieldsAt_sublist _ _ _)
  have hleft : (r.blocksBut starts).flatten.filter (·.tag = Tag.localBlock) = (r.blocksBut starts).flatten := by
    rw [List.filter_eq_self]
    intro f hf
    have hmem : f ∈ r.fieldsWithTag Tag.localBlock := by
      rw [← flatten_blocks]
      exact (r.blocksBut_sublist starts).flatten.subset hf
    rw [fieldsWithTag_of_ordered h] at hmem
    exact (List.mem_filter.1 hmem).2
  obtain ⟨hfront, hback⟩ := filter_beside_run h Tag.localBlock
  rw [fieldsWithTag_of_ordered hordered, fields_deleteLocalBlocks_eq, List.filter_append,
    List.filter_append, hfront, hback, hleft, List.nil_append, List.append_nil]

/-! ## Main result -/

/-- If all blocks begin with one local tag, none runs into a later one, since none runs into the next. -/
theorem pairwise_runsInto {bs : List (List Field)} {tag : String}
    (hchain : bs.IsChain fun b c => runsInto b c = false)
    (hsame : ∀ b ∈ bs, b.head?.map Field.localTag = some tag) :
    bs.Pairwise fun b c => runsInto b c = false := by
  induction bs with
  | nil => exact List.Pairwise.nil
  | cons b bs ih =>
    obtain ⟨_, hsame⟩ := List.forall_mem_cons.1 hsame
    obtain ⟨hnext, hchain⟩ := List.isChain_cons.1 hchain
    refine List.pairwise_cons.2 ⟨fun c hc => ?_, ih hchain hsame⟩
    cases bs with
    | nil => cases hc
    | cons next bs =>
      rw [runsInto_congr ((hsame c hc).trans (hsame next List.mem_cons_self).symm)]
      exact hnext next rfl

/-- **What deleting blocks does to the others.** In a record in order, the blocks found after a deletion are those
that were not listed, put together in groups: two neighbours are in one group exactly if the local tag does not fall
from the last field of the first to the first field of the second. So no block is cut, and the blocks found are just
those that were not listed if and only if the local tag falls from each of them to the next. It does if all blocks of
the record begin with one local tag. -/
theorem blocks_deleteLocalBlocks {r : Record} (h : Ordered r.fields) (starts : List Nat) :
    (r.deleteLocalBlocks starts).blocks = ((r.blocksBut starts).splitBy runsInto).map List.flatten ∧
    ((r.deleteLocalBlocks starts).blocks = r.blocksBut starts ↔
      (r.blocksBut starts).IsChain fun b c => runsInto b c = false) ∧
    ∀ tag, (∀ b ∈ r.blocks, b.head?.map Field.localTag = some tag) →
      (r.deleteLocalBlocks starts).blocks = r.blocksBut starts := by
  have hsub := r.blocksBut_sublist starts
  have hsplit := r.blocks_eq_splitBy
  have hne : [] ∉ r.blocksBut starts := fun hnil =>
    List.nil_notMem_splitBy _ _ (hsplit ▸ hsub.subset hnil)
  have hchain : ∀ b ∈ r.blocksBut starts, b.IsChain fun f g => staysWith f g := fun b hb =>
    List.isChain_of_mem_splitBy (hsplit ▸ hsub.subset hb)
  have hfound : (r.deleteLocalBlocks starts).blocks = (r.blocksBut starts).flatten.splitBy staysWith := by
    rw [blocks_eq_splitBy, fieldsWithTag_deleteLocalBlocks h]
  have hiff : (r.deleteLocalBlocks starts).blocks = r.blocksBut starts ↔
      (r.blocksBut starts).IsChain fun b c => runsInto b c = false := by
    rw [hfound, List.splitBy_eq_iff]
    simp only [runsInto_eq_false_iff]
    exact ⟨fun h => h.2.2.2, fun h => ⟨trivial, hne, hchain, h⟩⟩
  refine ⟨hfound.trans (splitBy_flatten_blocks hne hchain), hiff, fun tag hsame => hiff.2 ?_⟩
  have hfalls : r.blocks.IsChain fun b c => runsInto b c = false := by
    rw [hsplit]
    exact (List.isChain_getLast_head_splitBy _ _).imp fun b c h => runsInto_eq_false_iff.2 h
  exact ((pairwise_runsInto hfalls hsame).sublist hsub).isChain

/-- A record with a `LOK` field for each of these local tags. -/
def withLocalTags (tags : List String) : Record :=
  ofParts (Leader.fresh .languageMaterial .monographOrItem)
    (⟨Tag.controlNumber, "1"⟩ :: tags.map fun tag => ⟨Tag.localBlock, "  \x1F0" ++ tag⟩)

/-- The middle one of three blocks that all begin with `001` goes. -/
theorem blocks_deleteLocalBlocks_middle :
    let r := withLocalTags ["001", "852", "001", "852", "866", "001"]
    Ordered r.fields ∧ r.localBlockStarts = [1, 3, 6] ∧
      (r.deleteLocalBlocks [3]).blocks = r.blocksBut [3] := by
  intro r
  have hordered : Ordered r.fields := by
    unfold Ordered
    decide +kernel
  obtain ⟨_, _, hsame⟩ := blocks_deleteLocalBlocks hordered [3]
  exact ⟨hordered, by decide +kernel, hsame "001" (by decide +kernel)⟩

/-- A block begins with `001`, and the one behind it with a greater local tag than the one in front of it. When the
block between them goes, these two are one. -/
theorem blocks_deleteLocalBlocks_fused :
    let r := withLocalTags ["005", "001", "008", "006"]
    Ordered r.fields ∧ r.localBlockStarts = [1, 2, 4] ∧ (r.blocksBut [2]).length = 2 ∧
      (r.deleteLocalBlocks [2]).blocks = [(r.blocksBut [2]).flatten] ∧
      (r.deleteLocalBlocks [2]).blocks ≠ r.blocksBut [2] := by
  intro r
  have hordered : Ordered r.fields := by
    unfold Ordered
    decide +kernel
  exact ⟨hordered, by decide +kernel⟩

end Record

end Marc21
