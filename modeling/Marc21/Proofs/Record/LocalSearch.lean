import Marc21.Record.LocalBlock
import Marc21.Proofs.Record.Deletion
import Marc21.Proofs.Text.ByteSlice

/-!
Searching a range of fields for the first run of those with a local tag and local indicators. The range may be
anything: empty, the wrong way round, or beyond the record. It is cut off at the end of the record, so a search that
would stop at a slice out of range finds the same (`searchLocalBlock_eq`), and what it finds is the first run, as far
as it goes (`findInLocalBlock_spec`).
-/

namespace Marc21

open Marc21.ByteSlice (PartAt width)

/-! ## Local tags and indicators -/

namespace Field

variable {f : Field} {localTag : String} {indicators : List Char}

/-- The bytes from the fourth to the seventh are a local tag, which is empty if they make no part of the contents. -/
def HasLocalTag (f : Field) (localTag : String) : Prop :=
  PartAt f.contents 4 7 localTag ∨ localTag = "" ∧ ∀ part, ¬PartAt f.contents 4 7 part

/-- What stands behind the first seven bytes. If the contents are shorter, or a character stands across that place,
it is nothing. -/
def HasLocalIndicators (f : Field) (indicators : List Char) : Prop :=
  (∃ front, f.contents.toList = front ++ indicators ∧ width front = 7) ∨
    indicators = [] ∧ ∀ front behind, f.contents.toList = front ++ behind → width front ≠ 7

/-- A field has a local tag, and local indicators that are the wanted ones. A wanted `?` stands for any, and for
none. -/
def FitsLocal (f : Field) (localTag : String) (indicator1 indicator2 : Char) : Prop :=
  f.HasLocalTag localTag ∧ ∃ indicators, f.HasLocalIndicators indicators ∧
    (indicator1 = '?' ∨ indicators[0]? = some indicator1) ∧
    (indicator2 = '?' ∨ indicators[1]? = some indicator2)

theorem hasLocalTag_iff : f.HasLocalTag localTag ↔ f.localTag = localTag := by
  rw [HasLocalTag, Field.localTag]
  simp only [← ByteSlice.slice?_eq_some_iff (show 4 ≤ 7 by decide)]
  cases ByteSlice.slice? f.contents 4 7 <;> simp [eq_comm]

theorem hasLocalIndicators_iff : f.HasLocalIndicators indicators ↔ f.localIndicators = indicators := by
  have hnone : (∀ front behind, f.contents.toList = front ++ behind → width front ≠ 7) ↔
      ∀ behind, ByteSlice.dropBytes 7 f.contents.toList ≠ some behind := by
    simp only [ne_eq, ByteSlice.dropBytes_eq_some_iff, not_exists, not_and]
    exact forall_comm
  rw [HasLocalIndicators, hnone, ← ByteSlice.dropBytes_eq_some_iff, localIndicators]
  cases ByteSlice.dropBytes 7 f.contents.toList <;> simp [eq_comm]

theorem matchesLocal_iff (indicator1 indicator2 : Char) :
    f.matchesLocal localTag indicator1 indicator2 = true ↔ f.FitsLocal localTag indicator1 indicator2 := by
  simp [matchesLocal, FitsLocal, indicatorFits, hasLocalTag_iff, hasLocalIndicators_iff, and_assoc]

end Field

/-! ## Runs -/

/-- Of the indices from `start` up to `stop`, the first ones one after the other that are wanted, as many as there
are. -/
structure FirstRun (wanted : Nat → Prop) (start stop : Nat) (s : Span) : Prop where
  start_le : start ≤ s.start
  start_lt_stop : s.start < s.stop
  stop_le : s.stop ≤ stop
  within : ∀ i, s.start ≤ i → i < s.stop → wanted i
  before : ∀ i, start ≤ i → i < s.start → ¬wanted i
  behind : s.stop = stop ∨ ¬wanted s.stop

/-- The index of a field that fits. -/
def FitsAt (fits : Field → Prop) (fs : List Field) (i : Nat) : Prop := ∃ f, fs[i]? = some f ∧ fits f

section

variable {fs : List Field} {fits : Field → Bool} {first : Nat}

theorem fitsAt_iff {i : Nat} (h : i < fs.length) : FitsAt (fits · = true) fs i ↔ fits fs[i] = true := by
  simp [FitsAt, List.getElem?_eq_getElem h]

/-- How far a run goes. -/
theorem length_takeWhile_spec (fits : Field → Bool) (fs : List Field) :
    (∀ i, i < (fs.takeWhile fits).length → FitsAt (fits · = true) fs i) ∧
      ¬FitsAt (fits · = true) fs (fs.takeWhile fits).length := by
  induction fs with
  | nil => simp [FitsAt]
  | cons f fs ih =>
    cases hf : fits f with
    | false => simp [FitsAt, hf]
    | true =>
      rw [List.takeWhile_cons_of_pos hf, List.length_cons]
      refine ⟨fun i hi => ?_, ih.2⟩
      cases i with
      | zero => exact ⟨f, rfl, hf⟩
      | succ i => exact ih.1 i (Nat.lt_of_succ_lt_succ hi)

/-- The first field that fits, and those behind it that do, are the first run. -/
theorem firstRun_of_findIdx? (h : fs.findIdx? fits = some first) :
    FirstRun (FitsAt (fits · = true) fs) 0 fs.length
      ⟨first, first + ((fs.drop first).takeWhile fits).length⟩ := by
  obtain ⟨hlt, hfits, hbefore⟩ := List.findIdx?_eq_some_iff_getElem.1 h
  obtain ⟨hwithin, hbehind⟩ := length_takeWhile_spec fits (fs.drop first)
  have hlength := (List.takeWhile_prefix (l := fs.drop first) fits).length_le
  have hdrop (i : Nat) : FitsAt (fits · = true) (fs.drop first) i ↔ FitsAt (fits · = true) fs (first + i) := by
    rw [FitsAt, FitsAt, List.getElem?_drop]
  rw [List.length_drop] at hlength
  refine ⟨Nat.zero_le _, ?_, ?_, fun i hi hstop => ?_, fun i _ (hi : i < first) => ?_, .inr ?_⟩
  · have hpos : 0 < ((fs.drop first).takeWhile fits).length := by
      by_contra hzero
      rw [Nat.eq_zero_of_not_pos hzero, hdrop, Nat.add_zero, fitsAt_iff hlt] at hbehind
      exact hbehind hfits
    dsimp only
    omega
  · dsimp only
    omega
  · obtain ⟨k, rfl⟩ := Nat.exists_eq_add_of_le hi
    exact (hdrop k).1 (hwithin k (Nat.lt_of_add_lt_add_left hstop))
  · rw [fitsAt_iff (by omega)]
    exact hbefore i hi
  · exact fun hfound => hbehind ((hdrop _).2 hfound)

end

/-- The same run, counted from another place. -/
theorem FirstRun.shift {wanted other : Nat → Prop} {start n : Nat} {s : Span} (h : FirstRun wanted 0 n s)
    (hother : ∀ i, i < n → (wanted i ↔ other (start + i))) :
    FirstRun other start (start + n) ⟨start + s.start, start + s.stop⟩ where
  start_le := Nat.le_add_right _ _
  start_lt_stop := Nat.add_lt_add_left h.start_lt_stop _
  stop_le := Nat.add_le_add_left h.stop_le _
  within i hi hstop := by
    obtain ⟨k, rfl⟩ := Nat.exists_eq_add_of_le (Nat.le_trans (Nat.le_add_right _ _) hi)
    have hk : k < s.stop := Nat.lt_of_add_lt_add_left hstop
    exact (hother k (Nat.lt_of_lt_of_le hk h.stop_le)).1 (h.within k (Nat.le_of_add_le_add_left hi) hk)
  before i hi hbefore := by
    obtain ⟨k, rfl⟩ := Nat.exists_eq_add_of_le hi
    have hk : k < s.start := Nat.lt_of_add_lt_add_left hbefore
    have hn : k < n := Nat.lt_of_lt_of_le (Nat.lt_trans hk h.start_lt_stop) h.stop_le
    exact fun hfound => h.before k (Nat.zero_le _) hk ((hother k hn).2 hfound)
  behind := by
    rcases Nat.eq_or_lt_of_le h.stop_le with heq | hlt
    · exact .inl (congrArg (start + ·) heq)
    · have hnot := h.behind.resolve_left (Nat.ne_of_lt hlt)
      exact .inr fun hfound => hnot ((hother s.stop hlt).2 hfound)

/-! ## Searching -/

/-- The fields in a range, unless it ends before it starts or reaches beyond them. -/
def fieldsIn? (fs : List Field) (s : Span) : Option (List Field) :=
  if s.start ≤ s.stop ∧ s.stop ≤ fs.length then some (fieldsIn fs s) else none

theorem fieldsIn?_eq {fs : List Field} {s : Span} (hle : s.start ≤ s.stop) (hstop : s.stop ≤ fs.length) :
    fieldsIn? fs s = some (fieldsIn fs s) :=
  if_pos ⟨hle, hstop⟩

namespace Record

section

variable (r : Record) (localTag : String) (indicator1 indicator2 : Char) (block : Span)

/-- Where a search ends that stays within the record. -/
def searchStop : Nat := min block.stop r.fields.length

/-- The range of a block that is searched. -/
def searched : Span := ⟨min block.start (r.searchStop block), r.searchStop block⟩

/-- Searches a block, and stops at a range of fields that is out of bounds. -/
def searchLocalBlock : Option Span :=
  let fits (f : Field) : Bool := f.matchesLocal localTag indicator1 indicator2
  (fieldsIn? r.fields (r.searched block)).bind fun fields =>
    match fields.findIdx? fits with
    | none => some ⟨r.searchStop block, r.searchStop block⟩
    | some first => (fieldsIn? fields ⟨first, fields.length⟩).map fun behind =>
      ⟨block.start + first, block.start + first + (behind.takeWhile fits).length⟩

theorem fieldsIn?_searched :
    fieldsIn? r.fields (r.searched block) = some (fieldsIn r.fields (r.searched block)) :=
  fieldsIn?_eq (Nat.min_le_right _ _) (Nat.min_le_right _ _)

variable {r localTag indicator1 indicator2 block}

theorem findInLocalBlock_of_none
    (h : (fieldsIn r.fields (r.searched block)).findIdx? (·.matchesLocal localTag indicator1 indicator2) = none) :
    r.findInLocalBlock localTag indicator1 indicator2 block = ⟨r.searchStop block, r.searchStop block⟩ := by
  unfold findInLocalBlock
  dsimp only
  split
  · rfl
  · next hfound => cases hfound.symm.trans h

theorem findInLocalBlock_of_some {first : Nat}
    (h : (fieldsIn r.fields (r.searched block)).findIdx? (·.matchesLocal localTag indicator1 indicator2) =
      some first) :
    r.findInLocalBlock localTag indicator1 indicator2 block =
      ⟨block.start + first, block.start + first + (((fieldsIn r.fields (r.searched block)).drop first).takeWhile
        (·.matchesLocal localTag indicator1 indicator2)).length⟩ := by
  unfold findInLocalBlock
  dsimp only
  split
  · next hnone => cases hnone.symm.trans h
  · next hfound =>
    cases hfound.symm.trans h
    rfl

theorem searchLocalBlock_eq : r.searchLocalBlock localTag indicator1 indicator2 block =
    some (r.findInLocalBlock localTag indicator1 indicator2 block) := by
  rw [searchLocalBlock, fieldsIn?_searched, Option.bind_some]
  split
  · next hnone => rw [findInLocalBlock_of_none hnone]
  · next first hfound =>
    have hlt := (List.findIdx?_eq_some_iff_getElem.1 hfound).1
    have hbehind : fieldsIn (fieldsIn r.fields (r.searched block))
        ⟨first, (fieldsIn r.fields (r.searched block)).length⟩ =
          (fieldsIn r.fields (r.searched block)).drop first :=
      List.take_of_length_le (Nat.le_of_eq List.length_drop)
    rw [fieldsIn?_eq (Nat.le_of_lt hlt) (Nat.le_refl _), hbehind, findInLocalBlock_of_some hfound,
      Option.map_some]

/-- The searched fields are those at the indices of the block that are within the record, if there are any. -/
theorem lt_length_searched {i : Nat} :
    i < (fieldsIn r.fields (r.searched block)).length ↔ block.start + i < r.searchStop block := by
  rw [length_fieldsIn (Nat.min_le_right _ _)]
  simp only [searched]
  omega

theorem add_length_searched (h : block.start ≤ r.searchStop block) :
    block.start + (fieldsIn r.fields (r.searched block)).length = r.searchStop block := by
  rw [length_fieldsIn (Nat.min_le_right _ _), searched, Nat.min_eq_left h, Nat.add_sub_cancel' h]

theorem fitsAt_searched {fits : Field → Prop} {i : Nat}
    (h : i < (fieldsIn r.fields (r.searched block)).length) :
    FitsAt fits (fieldsIn r.fields (r.searched block)) i ↔ FitsAt fits r.fields (block.start + i) := by
  have hstop := lt_length_searched.1 h
  have hstart : (r.searched block).start = block.start :=
    Nat.min_eq_left (Nat.le_of_lt (Nat.lt_of_le_of_lt (Nat.le_add_right _ _) hstop))
  rw [FitsAt, FitsAt, getElem?_fieldsIn (hstart ▸ hstop), hstart]

end

/-! ## Main result -/

/-- **Searching a block.** Whatever the range, no slice of the fields is out of bounds. If a field in it, up to the end
of the record, has the local tag and the wanted indicators, the search finds the first run of such fields, as far as
it goes. If there is none, it finds nothing, at the end. -/
theorem findInLocalBlock_spec (r : Record) (localTag : String) (indicator1 indicator2 : Char) (block : Span) :
    let stop := min block.stop r.fields.length
    let found := r.findInLocalBlock localTag indicator1 indicator2 block
    let Wanted := FitsAt (·.FitsLocal localTag indicator1 indicator2) r.fields
    r.searchLocalBlock localTag indicator1 indicator2 block = some found ∧
      ((∀ i, block.start ≤ i → i < stop → ¬Wanted i) → found = ⟨stop, stop⟩) ∧
      ((∃ i, block.start ≤ i ∧ i < stop ∧ Wanted i) → FirstRun Wanted block.start stop found) := by
  intro stop found Wanted
  refine ⟨searchLocalBlock_eq, ?_⟩
  have hwanted : FitsAt (·.matchesLocal localTag indicator1 indicator2 = true) r.fields = Wanted := by
    simp only [Wanted, Field.matchesLocal_iff]
  cases hfind : (fieldsIn r.fields (r.searched block)).findIdx?
      (·.matchesLocal localTag indicator1 indicator2) with
  | none =>
    refine ⟨fun _ => findInLocalBlock_of_none hfind, ?_⟩
    rintro ⟨i, hi, hstop, hfits⟩
    obtain ⟨k, rfl⟩ := Nat.exists_eq_add_of_le hi
    obtain ⟨f, hf, hmatches⟩ := (fitsAt_searched (lt_length_searched.2 hstop)).2 (hwanted ▸ hfits)
    have hnone := List.findIdx?_eq_none_iff.1 hfind f (List.mem_of_getElem? hf)
    exact absurd hmatches (Bool.eq_false_iff.1 hnone)
  | some first =>
    have hlt := lt_length_searched.1 (List.findIdx?_eq_some_iff_getElem.1 hfind).1
    have hstart : block.start ≤ r.searchStop block := Nat.le_of_lt (Nat.lt_of_le_of_lt (Nat.le_add_right _ _) hlt)
    have hrun := (firstRun_of_findIdx? hfind).shift fun i hi => fitsAt_searched hi
    rw [hwanted, add_length_searched hstart, ← Nat.add_assoc, ← findInLocalBlock_of_some hfind] at hrun
    refine ⟨fun hnone => ?_, fun _ => hrun⟩
    have hfirst := hrun.within _ (Nat.le_refl _) hrun.start_lt_stop
    exact absurd hfirst (hnone _ hrun.start_le (Nat.lt_of_lt_of_le hrun.start_lt_stop hrun.stop_le))

/-- In the first field the second indicator is missing, and in the third a character stands across the end of the
local tag. -/
example :
    let r := ofParts (Leader.fresh .languageMaterial .monographOrItem)
      (["  \x1F08521", "  \x1F085212", "  \x1F085é", "  \x1F085212"].map fun contents =>
        ⟨Tag.localBlock, contents⟩)
    r.findInLocalBlock "852" '1' '?' ⟨0, 9⟩ = ⟨0, 2⟩ ∧ r.findInLocalBlock "852" '1' '2' ⟨0, 9⟩ = ⟨1, 2⟩ ∧
      r.findInLocalBlock "" '?' '?' ⟨0, 3⟩ = ⟨2, 3⟩ ∧ r.findInLocalBlock "852" '?' '?' ⟨3, 1⟩ = ⟨1, 1⟩ := by
  decide +kernel

end Record

end Marc21
