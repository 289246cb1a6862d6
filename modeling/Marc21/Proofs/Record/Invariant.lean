import Marc21.Proofs.Halving
import Marc21.Proofs.Record.LocalBlock
import Marc21.Proofs.Record.Order

/-!
What every change keeps of a record: its fields are in record order, and its size is what its fields come
to. There is one lemma for each change. Those that take bytes off the size need to know that the bytes are
there, since the size is a natural number.
-/

namespace Marc21

/-- Fields in record order, and the size that they come to. -/
structure Record.WellFormed (r : Record) : Prop where
  ordered : Ordered r.fields
  size_eq : r.size = exactSize r.fields

theorem ordered_iff_map {fs : List Field} :
    Ordered fs ↔ (fs.map Field.rank).Pairwise fun m n => m ≤ n :=
  List.pairwise_map.symm

/-- Order is a matter of the ranks alone. -/
theorem Ordered.of_map_rank {fs gs : List Field} (h : Ordered gs)
    (hmap : fs.map Field.rank = gs.map Field.rank) : Ordered fs := by
  rw [ordered_iff_map, hmap, ← ordered_iff_map]
  exact h

theorem totalSize_of_map_size {fs gs : List Field} (hmap : fs.map Field.size = gs.map Field.size) :
    totalSize fs = totalSize gs := by
  rw [totalSize_eq_sum, totalSize_eq_sum, hmap]

namespace Record

/-! ## Records from nothing and from parts -/

theorem wellFormed_sorted {r : Record} (h : r.size = exactSize r.fields) : r.sorted.WellFormed where
  ordered := ordered_sortFields r.fields
  size_eq := by
    rw [sorted, exactSize, totalSize_sortFields]
    exact h

theorem wellFormed_sorted_ofParts (l : Leader) (fs : List Field) : (ofParts l fs).sorted.WellFormed :=
  wellFormed_sorted rfl

theorem wellFormed_build (type : MaterialType) (level : BibliographicLevel) (fs : List Field) :
    (build type level fs).WellFormed :=
  wellFormed_sorted_ofParts _ fs

theorem wellFormed_fresh (type : MaterialType) (level : BibliographicLevel)
    (controlNumber : Option String) : (fresh type level controlNumber).WellFormed := by
  have hempty : (ofParts (Leader.fresh type level) []).WellFormed := ⟨ordered_nil, rfl⟩
  unfold fresh
  dsimp only
  split
  · split
    · exact hempty
    · exact ⟨List.pairwise_singleton _ _, rfl⟩
  · exact hempty

/-! ## Changes that add to the size or compute it anew -/

section

variable {r : Record}

theorem size_appendAll (h : r.size = exactSize r.fields) (fs : List Field) :
    (r.appendAll fs).size = exactSize (r.appendAll fs).fields := by
  rw [appendAll, exactSize, totalSize_append, h, exactSize, Nat.add_assoc]

/-- In a record in order, a field goes behind those that come no later. -/
theorem fields_withField (h : Ordered r.fields) (f : Field) :
    (r.withField f).fields = insertByKey Field.rank f r.fields :=
  insertByKey_bisect Field.rank h f

theorem ordered_withField (h : Ordered r.fields) (f : Field) : Ordered (r.withField f).fields := by
  rw [fields_withField h]
  exact inOrder_insertByKey Field.rank h f

theorem WellFormed.withField (h : r.WellFormed) (f : Field) : (r.withField f).WellFormed := by
  have hsplit : totalSize r.fields =
      totalSize (r.fields.take (r.place f)) + totalSize (r.fields.drop (r.place f)) := by
    rw [← totalSize_append, List.take_append_drop]
  refine ⟨ordered_withField h.ordered f, ?_⟩
  simp only [Record.withField, h.size_eq, exactSize, totalSize_append, totalSize_cons, hsplit]
  omega

theorem eq_withField_of_insert {s : Record} {f : Field} (hs : r.insert f = .ok (some s)) :
    s = r.withField f := by
  unfold Record.insert at hs
  simp only [bind, Except.bind, pure, Except.pure] at hs
  split at hs
  · split at hs
    · cases hs
    · split at hs
      · cases hs
      · exact (Option.some.inj (Except.ok.inj hs)).symm
  · exact (Option.some.inj (Except.ok.inj hs)).symm

theorem WellFormed.insert {s : Record} {f : Field} (h : r.WellFormed)
    (hs : r.insert f = .ok (some s)) : s.WellFormed :=
  eq_withField_of_insert hs ▸ h.withField f

theorem WellFormed.sorted (h : r.WellFormed) : r.sorted.WellFormed := wellFormed_sorted h.size_eq

theorem WellFormed.merge (h : r.WellFormed) (other : Record) : (r.merge other).WellFormed :=
  wellFormed_sorted (size_appendAll h.size_eq _)

theorem tag_deleteSubfields (code : Char) (f : Field) : (f.deleteSubfields code).tag = f.tag := by
  unfold Field.deleteSubfields
  split <;> rfl

theorem rank_eq_of_tag_eq {f g : Field} (h : f.tag = g.tag) : f.rank = g.rank := rank_eq_iff.2 h

theorem WellFormed.deleteSubfields (h : r.WellFormed) (tag : Tag) (code : Char) :
    (r.deleteSubfields tag code).WellFormed where
  ordered := h.ordered.of_map_rank
    (r.map_editRun tag fun f => rank_eq_of_tag_eq (tag_deleteSubfields code f))
  size_eq := rfl

theorem WellFormed.retag (h : r.WellFormed) (old new : Tag) : (r.retag old new).2.WellFormed := by
  unfold Record.retag
  dsimp only
  split
  · exact h
  · apply wellFormed_sorted
    dsimp only
    rw [h.size_eq, exactSize, exactSize, totalSize_of_map_size (r.map_editRun old fun f => ?_)]
    rfl

/-! ## Changes that take from the size -/

/-- The first field with a tag is edited, and no other. -/
theorem totalSize_editFirst (edit : Field → Field) {tag : Tag} {fs : List Field} {f : Field}
    (h : fs.find? (·.tag = tag) = some f) :
    totalSize (editFirst edit tag fs) + f.size = totalSize fs + (edit f).size := by
  induction fs with
  | nil => cases h
  | cons g fs ih =>
    by_cases hg : g.tag = tag
    · rw [List.find?_cons_of_pos (by simpa using hg)] at h
      cases h
      rw [editFirst, if_pos hg, totalSize_cons, totalSize_cons]
      omega
    · rw [List.find?_cons_of_neg (by simpa using hg)] at h
      rw [editFirst, if_neg hg, totalSize_cons, totalSize_cons]
      have := ih h
      omega

theorem map_editFirst {α : Type} {edit : Field → Field} {g : Field → α} (h : ∀ f, g (edit f) = g f)
    (tag : Tag) (fs : List Field) : (editFirst edit tag fs).map g = fs.map g := by
  induction fs with
  | nil => rfl
  | cons f fs ih =>
    rw [editFirst]
    split
    · rw [List.map_cons, h, List.map_cons]
    · rw [List.map_cons, ih, List.map_cons]

theorem size_le_of_mem (h : r.size = exactSize r.fields) {f : Field} (hf : f ∈ r.fields) :
    f.size ≤ r.size := by
  rw [h, exactSize]
  exact Nat.le_trans (size_le_totalSize hf) (Nat.le_add_left _ _)

theorem WellFormed.addSubfield {s : Record} {tag : Tag} {code : Char} {value : String}
    (h : r.WellFormed) (hs : r.addSubfield tag code value = some s) : s.WellFormed := by
  unfold Record.addSubfield at hs
  split at hs
  · cases hs
  · obtain ⟨f, hf, rfl⟩ := Option.map_eq_some_iff.1 hs
    have hmem : f ∈ r.fields := List.mem_of_find?_eq_some hf
    have hsize := totalSize_editFirst (fun f => f.addSubfield code value) hf
    have hle := size_le_totalSize hmem
    have hrank : ∀ g : Field, (g.addSubfield code value).rank = g.rank := fun g => rfl
    refine ⟨h.ordered.of_map_rank (map_editFirst hrank tag r.fields), ?_⟩
    dsimp only
    rw [h.size_eq, exactSize, exactSize]
    omega

theorem totalSize_eraseIdx {fs : List Field} {i : Nat} {f : Field} (h : fs[i]? = some f) :
    totalSize (fs.eraseIdx i) + f.size = totalSize fs := by
  induction fs generalizing i with
  | nil => cases h
  | cons g fs ih =>
    cases i with
    | zero =>
      cases h
      rw [List.eraseIdx_cons_zero, totalSize_cons, Nat.add_comm]
    | succ i =>
      rw [List.getElem?_cons_succ] at h
      rw [List.eraseIdx_cons_succ, totalSize_cons, totalSize_cons, Nat.add_assoc, ih h]

theorem fields_deleteField_sublist (r : Record) (i : Nat) : (r.deleteField i).fields.Sublist r.fields := by
  unfold Record.deleteField
  split
  · exact List.eraseIdx_sublist _ _
  · exact List.Sublist.refl _

theorem size_deleteField (h : r.size = exactSize r.fields) (i : Nat) :
    (r.deleteField i).size = exactSize (r.deleteField i).fields := by
  unfold Record.deleteField
  split
  · next f hf =>
    have hsize := totalSize_eraseIdx hf
    dsimp only
    rw [h, exactSize, exactSize]
    omega
  · exact h

theorem WellFormed.deleteField (h : r.WellFormed) (i : Nat) : (r.deleteField i).WellFormed :=
  ⟨h.ordered.sublist (fields_deleteField_sublist r i), size_deleteField h.size_eq i⟩

theorem WellFormed.foldl_deleteField (h : r.WellFormed) (indices : List Nat) :
    (indices.foldl Record.deleteField r).WellFormed := by
  induction indices generalizing r with
  | nil => exact h
  | cons i indices ih => exact ih (h.deleteField i)

theorem WellFormed.deleteFields (h : r.WellFormed) (indices : List Nat) :
    (r.deleteFields indices).WellFormed :=
  h.foldl_deleteField _

/-- A span and what lies around it make up the fields. -/
theorem append_span (fs : List Field) {span : Span} (hle : span.start ≤ span.stop) :
    fs.take span.start ++ ((fs.drop span.start).take (span.stop - span.start) ++ fs.drop span.stop) =
      fs := by
  have hdrop : fs.drop span.stop = (fs.drop span.start).drop (span.stop - span.start) := by
    rw [List.drop_drop, Nat.add_sub_cancel' hle]
  rw [hdrop, List.take_append_drop, List.take_append_drop]

theorem totalSize_span (fs : List Field) {span : Span} (hle : span.start ≤ span.stop) :
    totalSize (fs.take span.start ++ fs.drop span.stop) +
      totalSize ((fs.drop span.start).take (span.stop - span.start)) = totalSize fs := by
  have hsum := congrArg totalSize (append_span fs hle)
  simp only [totalSize_append] at hsum ⊢
  omega

theorem fields_deleteSpan_sublist (r : Record) {span : Span} (hle : span.start ≤ span.stop) :
    (r.deleteSpan span).fields.Sublist r.fields := by
  have hsub := (List.Sublist.refl (r.fields.take span.start)).append (List.sublist_append_right
    ((r.fields.drop span.start).take (span.stop - span.start)) (r.fields.drop span.stop))
  rwa [append_span r.fields hle] at hsub

theorem size_deleteSpan (h : r.size = exactSize r.fields) {span : Span}
    (hle : span.start ≤ span.stop) :
    (r.deleteSpan span).size = exactSize (r.deleteSpan span).fields := by
  have hsize := totalSize_span r.fields hle
  simp only [Record.deleteSpan]
  rw [h, exactSize, exactSize]
  omega

theorem WellFormed.deleteSpan (h : r.WellFormed) {span : Span} (hle : span.start ≤ span.stop) :
    (r.deleteSpan span).WellFormed :=
  ⟨h.ordered.sublist (fields_deleteSpan_sublist r hle), size_deleteSpan h.size_eq hle⟩

end

/-! ## Local blocks -/

theorem start_le_stop_of_mem_localBlocks (r : Record) : ∀ s ∈ r.localBlocks, s.start ≤ s.stop :=
  fun s hs => Nat.le_of_lt (r.scan_localBlocks.tiles.lt_of_mem s hs)

theorem start_le_stop_of_mem_joinSpan {done : List Span} {s : Span}
    (hdone : ∀ t ∈ done, t.start ≤ t.stop) (hs : s.start ≤ s.stop) :
    ∀ t ∈ joinSpan done s, t.start ≤ t.stop := by
  unfold joinSpan
  split
  · next last rest =>
    obtain ⟨hlast, hrest⟩ := List.forall_mem_cons.1 hdone
    split
    · rw [List.forall_mem_cons]
      exact ⟨Nat.le_trans hlast (Nat.le_max_left _ _), hrest⟩
    · exact List.forall_mem_cons.2 ⟨hs, hdone⟩
  · exact List.forall_mem_singleton.2 hs

theorem start_le_stop_of_mem_coalesce {spans : List Span} (h : ∀ s ∈ spans, s.start ≤ s.stop) :
    ∀ s ∈ coalesce spans, s.start ≤ s.stop := by
  have hfold {todo done : List Span} (hdone : ∀ t ∈ done, t.start ≤ t.stop)
      (htodo : ∀ t ∈ todo, t.start ≤ t.stop) : ∀ t ∈ todo.foldl joinSpan done, t.start ≤ t.stop := by
    induction todo generalizing done with
    | nil => exact hdone
    | cons s todo ih =>
      obtain ⟨hs, htodo⟩ := List.forall_mem_cons.1 htodo
      exact ih (start_le_stop_of_mem_joinSpan hdone hs) htodo
  intro s hs
  rw [coalesce, List.mem_reverse] at hs
  refine hfold (by simp) ?_ s hs
  intro t ht
  exact h t (List.mem_mergeSort.1 ht)

theorem WellFormed.foldr_deleteSpan {r : Record} (h : r.WellFormed) {spans : List Span}
    (hle : ∀ s ∈ spans, s.start ≤ s.stop) :
    (spans.foldr (fun span r => r.deleteSpan span) r).WellFormed := by
  induction spans with
  | nil => exact h
  | cons s spans ih =>
    obtain ⟨hs, hspans⟩ := List.forall_mem_cons.1 hle
    exact (ih hspans).deleteSpan hs

/-- The spans that a deletion of local blocks goes by. -/
theorem start_le_stop_of_mem_doomed (r : Record) (starts : List Nat) :
    ∀ s ∈ coalesce (r.localBlocks.filter fun b => starts.contains b.start), s.start ≤ s.stop :=
  start_le_stop_of_mem_coalesce fun s hs =>
    start_le_stop_of_mem_localBlocks r s (List.mem_filter.1 hs).1

theorem WellFormed.deleteLocalBlocks {r : Record} (h : r.WellFormed) (starts : List Nat) :
    (r.deleteLocalBlocks starts).WellFormed :=
  h.foldr_deleteSpan (start_le_stop_of_mem_doomed r starts)

end Record

end Marc21
