import Marc21.Proofs.Record.Repeatability

/-!
Two ways to put a record together: its fields are inserted one by one, or all of them are taken and sorted. An
insertion puts its field where a stable sort does (`withField_eq_sorted`), so all of them together come to the sort
of all fields, and they all take their fields exactly if none repeats that may not (`insertAll_eq_some_iff`). The
place of a field is found by halving. Going through the fields from the first one on would lead to the same place,
since they are in order (`insertBehind_eq`).
-/

namespace Marc21

/-! ## The order of fields -/

theorem Tag.rank_le_iff {s t : Tag} : s.rank ≤ t.rank ↔ s.bytes ≤ t.bytes := by
  obtain ⟨a, b, c, _⟩ := s
  obtain ⟨d, e, f, _⟩ := t
  have hb := b.toNat_lt
  have he := e.toNat_lt
  have hc := c.toNat_lt
  have hf := f.toNat_lt
  simp only [rank, bytes, List.cons_le_cons_iff, UInt8.lt_iff_toNat_lt, ← UInt8.toNat_inj,
    List.le_refl, and_true]
  omega

/-- A field may stand in front of another: `001` in front of all, and others by the bytes of their tags. -/
def Field.NoLater (f g : Field) : Prop :=
  f.tag = Tag.controlNumber ∨ g.tag ≠ Tag.controlNumber ∧ f.tag.bytes ≤ g.tag.bytes

theorem Field.noLater_iff {f g : Field} : f.NoLater g ↔ f.rank ≤ g.rank := by
  unfold NoLater rank
  by_cases hf : f.tag = Tag.controlNumber
  · simp [hf]
  · by_cases hg : g.tag = Tag.controlNumber
    · simp [hf, hg]
    · simp [hf, hg, Tag.rank_le_iff]

/-- The same fields in record order, and those of one tag as they stood. -/
structure StablySorted (fs gs : List Field) : Prop where
  inOrder : gs.Pairwise Field.NoLater
  sameTag : ∀ tag : Tag, gs.filter (·.tag = tag) = fs.filter (·.tag = tag)

theorem filter_tag_eq_ofRank (tag : Tag) (fs : List Field) :
    fs.filter (·.tag = tag) = ofRank (Field.rank ⟨tag, ""⟩) fs :=
  List.filter_congr fun f _ => decide_eq_decide.2 (rank_eq_iff (f := f) (g := ⟨tag, ""⟩)).symm

theorem stablySorted_sortFields (fs : List Field) : StablySorted fs (sortFields fs) where
  inOrder := (ordered_sortFields fs).imp Field.noLater_iff.2
  sameTag tag := by rw [filter_tag_eq_ofRank, filter_tag_eq_ofRank, ofRank_sortFields]

namespace Record

variable {r : Record}

/-! ## One insertion after the other -/

/-- The record that an insertion gives if it takes its field. -/
def taken? : Except MarcError (Option Record) → Option Record
  | .ok s => s
  | .error _ => none

/-- The record after insertions each of which took its field, or nothing if one did not. -/
def insertAll (insertion : Record → Field → Except MarcError (Option Record)) (r : Record)
    (fs : List Field) : Option Record :=
  fs.foldlM (fun r f => taken? (insertion r f)) r

/-- A field is taken unless its tag is there already and may not repeat. -/
theorem taken?_insert_eq_some_iff {f : Field} {s : Record} : taken? (r.insert f) = some s ↔
    ¬(f.tag.IsSingle ∧ ∃ g ∈ r.fields, g.tag = f.tag) ∧ s = r.withField f := by
  rw [Tag.isSingle_iff]
  rcases r.insert_cases f with ⟨h, hlisted, honce⟩ | ⟨h, honce, hlisted⟩ | ⟨h, hlisted, honce⟩
  · simp [h, taken?, hlisted]
  · simp [h, taken?, honce]
  · simp only [h, taken?, Option.some.injEq]
    constructor
    · rintro rfl
      refine ⟨?_, rfl⟩
      rintro ⟨hkind | hkind, hpresent⟩
      · exact hlisted ⟨hpresent, hkind⟩
      · exact honce ⟨hpresent, hkind⟩
    · rintro ⟨_, rfl⟩
      rfl

theorem inserted_of_taken? {f : Field} {s : Record} (h : taken? (r.insert f) = some s) : r.inserted f = s := by
  unfold taken? at h
  split at h
  · next htaken => rw [inserted, htaken, h]
  · cases h

theorem insertAll_cons (insertion : Record → Field → Except MarcError (Option Record)) (r : Record)
    (f : Field) (fs : List Field) : insertAll insertion r (f :: fs) =
      (taken? (insertion r f)).bind fun s => insertAll insertion s fs := rfl

/-- An insertion puts its field where a stable sort does. -/
theorem withField_eq_sorted (h : Ordered r.fields) (f : Field) : r.withField f = (r.append f).sorted := by
  have hfields : (r.withField f).fields = sortFields (r.fields ++ [f]) :=
    (fields_withField h f).trans (insertByKey_eq_sortByKey Field.rank h f)
  rw [sorted, append, appendAll, ← hfields]
  rfl

/-- What is put behind a field that was inserted might as well be put behind one that was appended. -/
theorem sorted_appendAll_withField (h : Ordered r.fields) (f : Field) (fs : List Field) :
    ((r.withField f).appendAll fs).sorted = (r.appendAll (f :: fs)).sorted := by
  have hfields : sortFields (sortFields (r.fields ++ [f]) ++ fs) = sortFields (r.fields ++ f :: fs) := by
    rw [sortFields_append_left, List.append_assoc, List.singleton_append]
  rw [withField_eq_sorted h]
  simp only [sorted, append, appendAll, hfields, totalSize_cons, totalSize_nil, Nat.add_zero, Nat.add_assoc]

theorem singlesOnce_congr {fs gs : List Field} (h : fs.Perm gs) : SinglesOnce fs ↔ SinglesOnce gs := by
  simp only [SinglesOnce, (h.map Field.tag).count_eq]

theorem singlesOnce_withField (h : Ordered r.fields) (f : Field) (fs : List Field) :
    SinglesOnce ((r.withField f).fields ++ fs) ↔ SinglesOnce (r.fields ++ f :: fs) := by
  have hfields : (r.withField f).fields = sortFields (r.fields ++ [f]) := by
    rw [withField_eq_sorted h]
    rfl
  rw [hfields, List.append_cons r.fields f fs]
  exact singlesOnce_congr ((sortFields_perm _).append_right fs)

/-- A tag that may not repeat is not there yet if it is there once in the end. -/
theorem not_present_of_singlesOnce {f : Field} {fs : List Field} (h : SinglesOnce (r.fields ++ f :: fs)) :
    ¬(f.tag.IsSingle ∧ ∃ g ∈ r.fields, g.tag = f.tag) := by
  rintro ⟨hsingle, hpresent⟩
  have honce := h f.tag hsingle
  have hpos := List.count_pos_iff.2 (List.mem_map.2 hpresent)
  rw [List.map_append, List.count_append, List.map_cons, List.count_cons_self] at honce
  omega

/-- All insertions take their fields exactly if no tag repeats then that may not. They come to a stable sort. -/
theorem insertAll_eq_some_iff (h : InKeeping r.fields) {fs : List Field} {s : Record} :
    insertAll insert r fs = some s ↔ SinglesOnce (r.fields ++ fs) ∧ s = (r.appendAll fs).sorted := by
  induction fs generalizing r with
  | nil =>
    have hsame : (r.appendAll []).sorted = r := by
      rw [appendAll, sorted, List.append_nil, sortFields_of_ordered h.ordered]
      rfl
    rw [hsame, List.append_nil]
    constructor
    · rintro ⟨⟩
      exact ⟨h.once, rfl⟩
    · rintro ⟨_, rfl⟩
      rfl
  | cons f fs ih =>
    rw [insertAll_cons, Option.bind_eq_some_iff, ← sorted_appendAll_withField h.ordered]
    have hkept {q : Record} (hq : taken? (r.insert f) = some q) : InKeeping q.fields :=
      inserted_of_taken? hq ▸ h.inserted f
    constructor
    · rintro ⟨q, hq, hs⟩
      obtain ⟨honce, hsorted⟩ := (ih (hkept hq)).1 hs
      obtain ⟨_, rfl⟩ := taken?_insert_eq_some_iff.1 hq
      exact ⟨(singlesOnce_withField h.ordered f fs).1 honce, hsorted⟩
    · rintro ⟨honce, hsorted⟩
      have hq := taken?_insert_eq_some_iff.2 ⟨not_present_of_singlesOnce honce, rfl⟩
      exact ⟨_, hq, (ih (hkept hq)).2 ⟨(singlesOnce_withField h.ordered f fs).2 honce, hsorted⟩⟩

/-- Insertion of a field behind those that come no later, by going through the fields from the first one on. -/
def insertBehind (r : Record) (f : Field) : Except MarcError (Option Record) := do
  if r.hasTag f.tag then
    if !(← f.tag.isRepeatable) then return none
  return some { r with fields := insertByKey Field.rank f r.fields, size := r.size + f.size }

theorem insertBehind_eq (h : Ordered r.fields) (f : Field) : r.insertBehind f = r.insert f := by
  rw [insertBehind, ← fields_withField h f]
  rfl

theorem insertAll_insertBehind (h : Ordered r.fields) (fs : List Field) :
    insertAll insertBehind r fs = insertAll insert r fs := by
  induction fs generalizing r with
  | nil => rfl
  | cons f fs ih =>
    rw [insertAll_cons, insertAll_cons, insertBehind_eq h]
    cases htaken : taken? (r.insert f) with
    | none => rfl
    | some s =>
      obtain ⟨_, rfl⟩ := taken?_insert_eq_some_iff.1 htaken
      exact ih (ordered_withField h f)

/-! ## Main result -/

/-- Insertions into a record without fields leave its leader alone, and put their fields and their sizes in. -/
theorem insertAll_fieldless (leader : Leader) (size : Nat) (fs : List Field) (s : Record) :
    insertAll insert ⟨leader, [], size⟩ fs = some s ↔
      SinglesOnce fs ∧ s = ⟨leader, sortFields fs, size + totalSize fs⟩ :=
  insertAll_eq_some_iff (r := ⟨leader, [], size⟩) ⟨ordered_nil, fun _ _ => Nat.zero_le 1⟩

/-- **Inserting one by one is building at once.** Fields that are inserted into a record without fields, one after
the other, are all taken exactly if no tag repeats that may not, and the record then is the one that is built from
all of them: it has the same leader and size, and the fields are a stable sort of those that were inserted. A leader
that is not fresh stays, and a size that is not right stays wrong by as much. It makes no difference whether the
place of a field is found by halving or by going through the fields. -/
theorem insertAll_fresh (type : MaterialType) (level : BibliographicLevel) (fs : List Field) :
    (∀ s, insertAll insert (fresh type level none) fs = some s ↔
      SinglesOnce fs ∧ s = build type level fs) ∧
    StablySorted fs (build type level fs).fields ∧
    ∀ leader size,
      insertAll insert ⟨leader, [], size⟩ fs = (insertAll insert (fresh type level none) fs).map
        (fun s => ⟨leader, s.fields, size + totalSize fs⟩) ∧
      insertAll insertBehind ⟨leader, [], size⟩ fs = insertAll insert ⟨leader, [], size⟩ fs := by
  have hfresh := insertAll_fieldless (Leader.fresh type level) (exactSize []) fs
  refine ⟨hfresh, stablySorted_sortFields fs, fun leader size =>
    ⟨Option.ext fun s => ?_, insertAll_insertBehind ordered_nil fs⟩⟩
  rw [insertAll_fieldless, Option.map_eq_some_iff]
  constructor
  · rintro ⟨honce, rfl⟩
    exact ⟨_, (hfresh _).2 ⟨honce, rfl⟩, rfl⟩
  · rintro ⟨built, hbuilt, rfl⟩
    obtain ⟨honce, rfl⟩ := (hfresh built).1 hbuilt
    exact ⟨honce, rfl⟩

/-- `001` goes in front of `!00` and `000`, and a note behind the one that was there. -/
example :
    let note : Tag := { first := 0x35, second := 0x30, third := 0x30 }
    let fields : List Field := [⟨note, "A"⟩, ⟨{ first := 0x30, second := 0x30, third := 0x30 }, "B"⟩,
      ⟨Tag.controlNumber, "C"⟩, ⟨note, "D"⟩, ⟨{ first := 0x21, second := 0x30, third := 0x30 }, "E"⟩]
    (insertAll insert (fresh .languageMaterial .monographOrItem none) fields).map
      (fun s => s.fields.map Field.contents) = some ["C", "E", "B", "A", "D"] := by
  decide +kernel

end Record

end Marc21
