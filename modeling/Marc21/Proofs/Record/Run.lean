import Mathlib.Data.List.Basic
import Marc21.Record.Edit
import Marc21.Proofs.Record.Order

/-!
The run of a tag: the fields from the first one that has the tag up to the first one behind it that has another.
Its span is where it lies (`append_fieldsWithTag`), and an edit of it changes nothing else (`map_editRun`). In a
record in order the run holds every field with the tag (`fieldsWithTag_of_ordered`).
-/

namespace Marc21.Record

private theorem drop_length_takeWhile (p : Field → Bool) (fs : List Field) :
    fs.drop (fs.takeWhile p).length = fs.dropWhile p := by
  rw [List.takeWhile_eq_take_findIdx_not, List.length_take, Nat.min_eq_left List.findIdx_le_length,
    List.dropWhile_eq_drop_findIdx_not]

section

variable (r : Record) (tag : Tag)

theorem drop_tagSpan_start :
    r.fields.drop (r.tagSpan tag).start = r.fields.dropWhile (·.tag ≠ tag) := by
  rw [List.dropWhile_eq_drop_findIdx_not]
  simp [tagSpan]

theorem tagSpan_stop :
    (r.tagSpan tag).stop = (r.tagSpan tag).start + (r.fieldsWithTag tag).length := by
  rw [fieldsWithTag, ← drop_tagSpan_start]
  rfl

/-- The run lies between what comes before it and what comes after it. -/
theorem append_fieldsWithTag : r.fields.take (r.tagSpan tag).start ++ r.fieldsWithTag tag ++
    r.fields.drop (r.tagSpan tag).stop = r.fields := by
  have hafter : r.fields.drop (r.tagSpan tag).stop =
      (r.fields.dropWhile (·.tag ≠ tag)).dropWhile (·.tag = tag) := by
    rw [tagSpan_stop, ← List.drop_drop, drop_tagSpan_start, fieldsWithTag, drop_length_takeWhile]
  rw [hafter, List.append_assoc, fieldsWithTag, List.takeWhile_append_dropWhile,
    ← drop_tagSpan_start, List.take_append_drop]

theorem drop_tagSpan : r.fields.drop (r.tagSpan tag).start =
    r.fieldsWithTag tag ++ r.fields.drop (r.tagSpan tag).stop := by
  have hfront : r.fields.take (r.tagSpan tag).start ++ r.fields.drop (r.tagSpan tag).start =
      r.fields.take (r.tagSpan tag).start ++
        (r.fieldsWithTag tag ++ r.fields.drop (r.tagSpan tag).stop) := by
    rw [List.take_append_drop, ← List.append_assoc, append_fieldsWithTag]
  exact List.append_cancel_left hfront

/-- The run begins with the first field that has the tag. -/
theorem head?_fieldsWithTag : (r.fieldsWithTag tag).head? = r.firstField? tag := by
  unfold fieldsWithTag firstField?
  induction r.fields with
  | nil => rfl
  | cons f fs ih =>
    by_cases h : f.tag = tag
    · simp [h]
    · simpa [h] using ih

theorem tag_eq_of_mem_fieldsWithTag : ∀ f ∈ r.fieldsWithTag tag, f.tag = tag :=
  fun f hf => of_decide_eq_true (List.all_eq_true.1 List.all_takeWhile f hf)

theorem fieldsWithTag_eq_nil_iff : r.fieldsWithTag tag = [] ↔ ∀ f ∈ r.fields, f.tag ≠ tag := by
  rw [← List.head?_eq_none_iff, head?_fieldsWithTag, firstField?, List.find?_eq_none]
  simp

/-- An edit of a run that leaves some quality of each field alone leaves it alone throughout. -/
theorem map_editRun {α : Type} {edit : Field → Field} {g : Field → α}
    (h : ∀ f, g (edit f) = g f) : (r.editRun tag edit).map g = r.fields.map g := by
  have hrun : ((r.fieldsWithTag tag).map edit).map g = (r.fieldsWithTag tag).map g := by
    rw [List.map_map]
    exact List.map_congr_left fun f _ => h f
  rw [editRun, List.map_append, List.map_append, hrun, ← List.map_append, ← List.map_append,
    append_fieldsWithTag]

end

/-! ## In record order -/

theorem takeWhile_of_ordered {f : Field} {fs : List Field} (h : Ordered fs)
    (hle : ∀ g ∈ fs, f.rank ≤ g.rank) :
    fs.takeWhile (·.tag = f.tag) = fs.filter (·.tag = f.tag) := by
  induction fs with
  | nil => rfl
  | cons g fs ih =>
    obtain ⟨hfirst, hfs⟩ := ordered_cons.1 h
    obtain ⟨hg, hrest⟩ := List.forall_mem_cons.1 hle
    by_cases htag : g.tag = f.tag
    · simp [htag, ih hfs hrest]
    · have hlt : f.rank < g.rank := Nat.lt_of_le_of_ne hg fun heq => htag (rank_eq_iff.1 heq.symm)
      have hnone : fs.filter (·.tag = f.tag) = [] := by
        rw [List.filter_eq_nil_iff]
        intro g' hg' htag'
        have hsame : g'.rank = f.rank := rank_eq_iff.2 (of_decide_eq_true htag')
        have := hfirst g' hg'
        omega
      simp [htag, hnone]

/-- In order, fields of one tag stand together. -/
theorem fieldsWithTag_of_ordered {r : Record} (h : Ordered r.fields) (tag : Tag) :
    r.fieldsWithTag tag = r.fields.filter (·.tag = tag) := by
  unfold fieldsWithTag
  generalize r.fields = fs at h
  induction fs with
  | nil => rfl
  | cons f fs ih =>
    obtain ⟨hfirst, hfs⟩ := ordered_cons.1 h
    by_cases htag : f.tag = tag
    · subst htag
      simp [takeWhile_of_ordered hfs hfirst]
    · simpa [htag] using ih hfs

/-- No field with the tag stands in front of the run or behind it. -/
theorem filter_beside_run {r : Record} (h : Ordered r.fields) (tag : Tag) :
    (r.fields.take (r.tagSpan tag).start).filter (·.tag = tag) = [] ∧
      (r.fields.drop (r.tagSpan tag).stop).filter (·.tag = tag) = [] := by
  have hall := fieldsWithTag_of_ordered h tag
  have hrun : (r.fieldsWithTag tag).filter (·.tag = tag) = r.fieldsWithTag tag := by
    rw [hall, List.filter_filter]
    simp only [Bool.and_self]
  -- The run alone has as many of them as the record.
  have hlengths := congrArg (fun fs => (fs.filter (·.tag = tag)).length) (r.append_fieldsWithTag tag)
  simp only [List.filter_append, List.length_append, hrun, ← hall] at hlengths
  exact ⟨List.length_eq_zero_iff.1 (by omega), List.length_eq_zero_iff.1 (by omega)⟩

end Marc21.Record
