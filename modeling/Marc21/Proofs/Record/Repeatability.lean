import Mathlib.Data.List.Nodup
import Marc21.Proofs.Record.Change

/-!
Fields that may not repeat. An insertion asks the table of tags only if the tag is there already, so a tag that
may not repeat is never there twice, whatever else is changed (`run_singlesOnce`). An insertion that is refused
leaves the record as it was, and any other puts the field where record order wants it (`Record.insertion`).
-/

namespace Marc21

namespace Tag

/-- A tag of which the table does not say that it may repeat. -/
def IsSingle (t : Tag) : Prop := t.isRepeatable ≠ .ok true

/-- A tag that the table says may not repeat. -/
def ListedOnce (t : Tag) : Prop := t.isLocal = false ∧ t.number ∈ singleNumbers

/-- A tag that the table does not have. -/
def Unlisted (t : Tag) : Prop :=
  t.isLocal = false ∧ t.number ∉ singleNumbers ∧ t.number ∉ repeatableNumbers

/-- No number is in both lists. -/
theorem not_mem_repeatableNumbers : ∀ n ∈ singleNumbers, n ∉ repeatableNumbers := by decide

/-- The table takes a tag for one of three kinds. -/
theorem isRepeatable_cases (t : Tag) :
    t.isRepeatable = .error (.unknownTag t) ∧ t.Unlisted ∧ ¬t.ListedOnce ∨
      t.isRepeatable = .ok false ∧ t.ListedOnce ∧ ¬t.Unlisted ∨
      t.isRepeatable = .ok true ∧ ¬t.Unlisted ∧ ¬t.ListedOnce := by
  unfold isRepeatable repeatable? Unlisted ListedOnce
  have hdisjoint := not_mem_repeatableNumbers t.number
  by_cases hlocal : t.isLocal = true
  · simp [hlocal]
  · by_cases hsingle : t.number ∈ singleNumbers
    · simp [hlocal, hsingle, hdisjoint hsingle]
    · by_cases hrepeatable : t.number ∈ repeatableNumbers
      · simp [hlocal, hsingle, hrepeatable]
      · simp [hlocal, hsingle, hrepeatable]

theorem isSingle_iff {t : Tag} : t.IsSingle ↔ t.Unlisted ∨ t.ListedOnce := by
  unfold IsSingle
  rcases t.isRepeatable_cases with ⟨h, hkind⟩ | ⟨h, hkind⟩ | ⟨h, hkind⟩
  · simp [h, hkind]
  · simp [h, hkind]
  · simp [h, hkind]

end Tag

/-! ## Insertion -/

namespace Record

variable {r : Record} {f : Field}

theorem hasTag_iff {tag : Tag} : r.hasTag tag = true ↔ ∃ g ∈ r.fields, g.tag = tag := by
  simp [hasTag, firstField?]

theorem insert_of_absent (h : ¬∃ g ∈ r.fields, g.tag = f.tag) :
    r.insert f = .ok (some (r.withField f)) := by
  rw [← hasTag_iff] at h
  simp [Record.insert, h, pure, Except.pure]

/-- If the tag is there, the table decides. -/
theorem insert_of_present (h : ∃ g ∈ r.fields, g.tag = f.tag) :
    r.insert f = match f.tag.isRepeatable with
      | .error e => .error e
      | .ok false => .ok none
      | .ok true => .ok (some (r.withField f)) := by
  rw [← hasTag_iff] at h
  cases hrepeatable : f.tag.isRepeatable with
  | error e => simp [Record.insert, h, hrepeatable, bind, Except.bind]
  | ok b => cases b <;> simp [Record.insert, h, hrepeatable, pure, Except.pure, bind, Except.bind]

/-- The three ways in which an insertion can end, and when each of them is taken. -/
theorem insert_cases (r : Record) (f : Field) :
    let present := ∃ g ∈ r.fields, g.tag = f.tag
    r.insert f = .error (.unknownTag f.tag) ∧ (present ∧ f.tag.Unlisted) ∧
        ¬(present ∧ f.tag.ListedOnce) ∨
      r.insert f = .ok none ∧ (present ∧ f.tag.ListedOnce) ∧ ¬(present ∧ f.tag.Unlisted) ∨
      r.insert f = .ok (some (r.withField f)) ∧ ¬(present ∧ f.tag.Unlisted) ∧
        ¬(present ∧ f.tag.ListedOnce) := by
  intro present
  by_cases hpresent : present
  · rw [insert_of_present hpresent]
    simp only [hpresent, true_and]
    rcases f.tag.isRepeatable_cases with ⟨h, hkind⟩ | ⟨h, hkind⟩ | ⟨h, hkind⟩
    · exact .inl ⟨by rw [h], hkind⟩
    · exact .inr (.inl ⟨by rw [h], hkind⟩)
    · exact .inr (.inr ⟨by rw [h], hkind⟩)
  · exact .inr (.inr ⟨insert_of_absent hpresent, fun h => hpresent h.1, fun h => hpresent h.1⟩)

/-- A field comes to a record, unless its tag is there already and is not known to repeat. -/
theorem inserted_cases (r : Record) (f : Field) :
    r.inserted f = r ∨
      r.inserted f = r.withField f ∧ (f.tag.IsSingle → ¬∃ g ∈ r.fields, g.tag = f.tag) := by
  unfold inserted
  rcases r.insert_cases f with ⟨h, _⟩ | ⟨h, _⟩ | ⟨h, hlisted, honce⟩
  · exact .inl (by rw [h])
  · exact .inl (by rw [h])
  · refine .inr ⟨by rw [h], fun hsingle hpresent => ?_⟩
    rcases Tag.isSingle_iff.1 hsingle with hkind | hkind
    · exact hlisted ⟨hpresent, hkind⟩
    · exact honce ⟨hpresent, hkind⟩

/-- In a record in order, the new field is right behind the last one that comes no later. -/
theorem withField_split (h : Ordered r.fields) (f : Field) :
    ∃ before behind, r.fields = before ++ behind ∧ (r.withField f).fields = before ++ f :: behind ∧
      (∀ g ∈ before, g.rank ≤ f.rank) ∧ ∀ g ∈ behind, f.rank < g.rank := by
  obtain ⟨before, behind, hfields, hafter, hbefore, hbehind⟩ := insertByKey_split Field.rank f r.fields
  exact ⟨before, behind, hfields, (fields_withField h f).trans hafter, hbefore, hbehind h⟩

end Record

/-! ## Single tags -/

/-- No tag that may not repeat is there twice. -/
def SinglesOnce (fs : List Field) : Prop := ∀ t : Tag, t.IsSingle → (fs.map Field.tag).count t ≤ 1

/-- Fields in record order, of which none repeats that may not. -/
structure InKeeping (fs : List Field) : Prop where
  ordered : Ordered fs
  once : SinglesOnce fs

/-- Order and repetition are a matter of the tags alone, and leaving fields out does no harm to them. -/
theorem InKeeping.of_tags_sublist {fs gs : List Field} (h : InKeeping gs)
    (hsub : (fs.map Field.tag).Sublist (gs.map Field.tag)) : InKeeping fs where
  ordered := by
    have hrank (hs : List Field) : hs.map Field.rank = (hs.map Field.tag).map fun t => Field.rank ⟨t, ""⟩ := by
      rw [List.map_map]
      rfl
    rw [ordered_iff_map, hrank]
    refine List.Pairwise.sublist (hsub.map _) ?_
    rw [← hrank, ← ordered_iff_map]
    exact h.ordered
  once t ht := Nat.le_trans (hsub.count_le t) (h.once t ht)

theorem InKeeping.inserted {r : Record} (h : InKeeping r.fields) (f : Field) :
    InKeeping (r.inserted f).fields := by
  rcases r.inserted_cases f with heq | ⟨heq, hnew⟩
  · rw [heq]
    exact h
  · rw [heq]
    refine ⟨Record.ordered_withField h.ordered f, fun t ht => ?_⟩
    obtain ⟨before, behind, hfields, hafter, _⟩ := Record.withField_split h.ordered f
    have honce := h.once t ht
    rw [hfields, List.map_append, List.count_append] at honce
    rw [hafter, List.map_append, List.map_cons, List.count_append, List.count_cons]
    split
    · next heq =>
      -- The tag may not repeat, so it was not there before.
      obtain rfl : f.tag = t := by simpa using heq
      have habsent : f.tag ∉ (before ++ behind).map Field.tag := by
        rw [← hfields, List.mem_map]
        exact hnew ht
      have hzero := List.count_eq_zero.2 habsent
      rw [List.map_append, List.count_append] at hzero
      omega
    · omega

namespace Record

theorem tags_addSubfield {r s : Record} {tag : Tag} {code : Char} {value : String}
    (hs : r.addSubfield tag code value = some s) : s.fields.map Field.tag = r.fields.map Field.tag := by
  unfold Record.addSubfield at hs
  split at hs
  · cases hs
  · obtain ⟨f, _, rfl⟩ := Option.map_eq_some_iff.1 hs
    have htag : ∀ g : Field, (g.addSubfield code value).tag = g.tag := fun g => rfl
    exact map_editFirst htag tag r.fields

theorem fields_deleteFields_sublist (r : Record) (indices : List Nat) :
    (r.deleteFields indices).fields.Sublist r.fields := by
  unfold deleteFields
  generalize (indices.mergeSort fun i j => j ≤ i).eraseReps = indices
  induction indices generalizing r with
  | nil => exact List.Sublist.refl _
  | cons i indices ih => exact (ih _).trans (fields_deleteField_sublist r i)

theorem fields_deleteLocalBlocks_sublist (r : Record) (starts : List Nat) :
    (r.deleteLocalBlocks starts).fields.Sublist r.fields := by
  have hle := start_le_stop_of_mem_doomed r starts
  unfold deleteLocalBlocks
  generalize coalesce (r.localBlocks.filter fun b => starts.contains b.start) = spans at hle ⊢
  induction spans with
  | nil => exact List.Sublist.refl _
  | cons s spans ih =>
    obtain ⟨hs, hspans⟩ := List.forall_mem_cons.1 hle
    exact (fields_deleteSpan_sublist _ hs).trans (ih hspans)

end Record

/-! ## Runs -/

namespace Change

/-- Changes that give no field another tag and take in no other record. -/
def KeepsTags : Change → Prop
  | retag .. | merge .. => False
  | _ => True

theorem apply_inKeeping {c : Change} (hc : c.KeepsTags) {r : Record} (h : InKeeping r.fields) :
    InKeeping (c.apply r).fields := by
  cases c with
  | insert f => exact h.inserted f
  | insertData tag indicator1 indicator2 ss => exact h.inserted _
  | addSubfield tag code value =>
    rw [apply]
    cases hs : r.addSubfield tag code value with
    | none => exact h
    | some s => exact h.of_tags_sublist (Record.tags_addSubfield hs ▸ List.Sublist.refl _)
  | deleteSubfields tag code =>
    have htags := r.map_editRun tag (Record.tag_deleteSubfields code)
    exact h.of_tags_sublist (htags ▸ List.Sublist.refl _)
  | retag old new => exact hc.elim
  | merge other => exact hc.elim
  | deleteFields indices => exact h.of_tags_sublist ((r.fields_deleteFields_sublist indices).map _)
  | deleteLocalBlocks starts => exact h.of_tags_sublist ((r.fields_deleteLocalBlocks_sublist starts).map _)
  | sort =>
    rw [apply, Record.sorted, sortFields_of_ordered h.ordered]
    exact h
  | setLevel level => exact h
  | setLeader leader => exact h

theorem run_inKeeping {cs : List Change} (hcs : ∀ c ∈ cs, c.KeepsTags) {r : Record}
    (h : InKeeping r.fields) : InKeeping (run cs r).fields := by
  induction cs generalizing r with
  | nil => exact h
  | cons c cs ih =>
    obtain ⟨hc, hcs⟩ := List.forall_mem_cons.1 hcs
    exact ih hcs (apply_inKeeping hc h)

end Change

/-! ## Main result -/

/-- How an insertion into a record ends: it fails, it is refused, or the field comes to the record. The first two
leave the record alone. -/
structure Record.Insertion (s : Record) (f : Field) : Prop where
  fails_iff : s.insert f = .error (.unknownTag f.tag) ↔
    (∃ g ∈ s.fields, g.tag = f.tag) ∧ f.tag.Unlisted
  refused_iff : s.insert f = .ok none ↔ (∃ g ∈ s.fields, g.tag = f.tag) ∧ f.tag.ListedOnce
  taken_iff : s.insert f = .ok (some ((Change.insert f).apply s)) ↔
    ¬((∃ g ∈ s.fields, g.tag = f.tag) ∧ (f.tag.Unlisted ∨ f.tag.ListedOnce))
  unchanged : (∃ g ∈ s.fields, g.tag = f.tag) → f.tag.Unlisted ∨ f.tag.ListedOnce →
    (Change.insert f).apply s = s
  placed : s.insert f = .ok (some ((Change.insert f).apply s)) →
    ((Change.insert f).apply s).leader = s.leader ∧
    ((Change.insert f).apply s).size = s.size + f.size ∧
    ∃ before behind, s.fields = before ++ behind ∧
      ((Change.insert f).apply s).fields = before ++ f :: behind ∧
      (∀ g ∈ before, g.rank ≤ f.rank) ∧ ∀ g ∈ behind, f.rank < g.rank

theorem Record.insertion {s : Record} (hs : Ordered s.fields) (f : Field) : s.Insertion f := by
  have happly : (Change.insert f).apply s = s.inserted f := rfl
  unfold Record.inserted at happly
  rcases s.insert_cases f with ⟨h, hlisted, honce⟩ | ⟨h, honce, hlisted⟩ | ⟨h, hlisted, honce⟩
  · rw [h] at happly
    constructor
    · exact iff_of_true h hlisted
    · exact iff_of_false (by simp [h]) honce
    · exact iff_of_false (by simp [h]) fun hno => hno ⟨hlisted.1, .inl hlisted.2⟩
    · exact fun _ _ => happly
    · simp [h]
  · rw [h] at happly
    constructor
    · exact iff_of_false (by simp [h]) hlisted
    · exact iff_of_true h honce
    · exact iff_of_false (by simp [h]) fun hno => hno ⟨honce.1, .inr honce.2⟩
    · exact fun _ _ => happly
    · simp [h]
  · rw [h] at happly
    have hno : ¬((∃ g ∈ s.fields, g.tag = f.tag) ∧ (f.tag.Unlisted ∨ f.tag.ListedOnce)) := by
      rintro ⟨hpresent, hkind | hkind⟩
      · exact hlisted ⟨hpresent, hkind⟩
      · exact honce ⟨hpresent, hkind⟩
    constructor
    · exact iff_of_false (by simp [h]) hlisted
    · exact iff_of_false (by simp [h]) honce
    · exact iff_of_true (by rw [h, happly]) hno
    · exact fun hpresent hkind => absurd ⟨hpresent, hkind⟩ hno
    · rw [happly]
      exact fun _ => ⟨rfl, rfl, withField_split hs f⟩

/-- **No tag repeats that may not.** A record in order, in which no such tag is there twice, stays so whatever
comes to it by insertions and whatever is taken from it. An insertion fails exactly if the tag is there and not
in the table, and is refused exactly if the tag is there and must not repeat. Neither changes anything. Any other
insertion puts the field right behind the last one that comes no later, and changes nothing else but the size. -/
theorem run_singlesOnce {r : Record} (hordered : Ordered r.fields) (honce : SinglesOnce r.fields)
    {cs : List Change} (hcs : ∀ c ∈ cs, c.KeepsTags) :
    SinglesOnce (Change.run cs r).fields ∧ ∀ f : Field, (Change.run cs r).Insertion f := by
  have hs := Change.run_inKeeping hcs ⟨hordered, honce⟩
  exact ⟨hs.once, fun f => Record.insertion hs.ordered f⟩

/-- A tag that the table does not have comes once, and so does a title. -/
theorem run_singlesOnce_titled :
    let r := Record.ofParts (Leader.fresh .languageMaterial .monographOrItem)
      [⟨Tag.controlNumber, "1"⟩, ⟨Tag.titleStatement, "10\x1FaA"⟩]
    let unknown : Field := ⟨{ first := 0x30, second := 0x31, third := 0x31 }, "  \x1FaB"⟩
    let cs : List Change := [.insert unknown, .addSubfield Tag.titleStatement 'b' "C",
      .insertData Tag.titleStatement '1' '0' [⟨'a', "D"⟩], .deleteSubfields Tag.titleStatement 'a']
    let s := Change.run cs r
    Ordered r.fields ∧ SinglesOnce r.fields ∧ (∀ c ∈ cs, c.KeepsTags) ∧ SinglesOnce s.fields ∧
      s.insert unknown = .error (.unknownTag unknown.tag) ∧
      s.insert ⟨Tag.titleStatement, "10\x1FaE"⟩ = .ok none := by
  intro r unknown cs s
  have hordered : Ordered r.fields := by
    unfold Ordered
    decide
  have honce : SinglesOnce r.fields := fun t _ => List.nodup_iff_count_le_one.1 (by decide) t
  have hcs : ∀ c ∈ cs, c.KeepsTags := by
    simp [cs, Change.KeepsTags]
  obtain ⟨hs, hinsertion⟩ := run_singlesOnce hordered honce hcs
  refine ⟨hordered, honce, hcs, hs, ?_, ?_⟩
  · exact (hinsertion unknown).fails_iff.2 ⟨by decide +kernel, by decide, by decide, by decide⟩
  · exact (hinsertion _).refused_iff.2 ⟨by decide +kernel, by decide, by decide⟩

end Marc21
