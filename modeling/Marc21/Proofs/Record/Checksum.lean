import Mathlib.Algebra.GroupWithZero.Nat
import Marc21.Record.Checksum
import Marc21.Record.Validity
import Marc21.Proofs.Leader

/-!
What a checksum depends on. The fields it covers have one order by tag and contents (`checksumFields_eq_iff`),
so in which order they come, and what else there is, makes no difference (`checksum_eq_of_perm`). What is
hashed does not say where a field ends. So records with other fields can be hashed from the same bytes, but
only if the contents of a field run on into the tag of the next one (`checksumInput_faithful`).
-/

namespace Marc21

namespace Field

/-! ## Order by tag and contents -/

section

variable {f g h : Field}

theorem isLE_compare_iff : (f.compare g).isLE = true ↔
    f.tag.rank < g.tag.rank ∨ f.tag.rank = g.tag.rank ∧ f.contents ≤ g.contents := by
  unfold compare
  rcases Nat.lt_trichotomy f.tag.rank g.tag.rank with hlt | heq | hgt
  · simp [Nat.compare_eq_lt.2 hlt, hlt]
  · rw [Nat.compare_eq_eq.2 heq]
    simp only [heq, Nat.lt_irrefl, true_and, false_or, Ordering.then]
    split
    · next hlt => simp [String.not_lt.1 (String.lt_asymm hlt)]
    · next hge =>
      split
      · next heq => simp [heq]
      · next hne =>
        simp only [Ordering.isLE, Bool.false_eq_true, false_iff]
        exact fun hle => hne (String.le_antisymm hle (String.not_lt.1 hge))
  · simp [Nat.compare_eq_gt.2 hgt, Nat.lt_asymm hgt, Nat.ne_of_gt hgt]

theorem isLE_compare_trans (hfg : (f.compare g).isLE = true) (hgh : (g.compare h).isLE = true) :
    (f.compare h).isLE = true := by
  rw [isLE_compare_iff] at *
  rcases hfg with hfg | ⟨hfg, hle⟩
  · exact .inl (by omega)
  · rcases hgh with hgh | ⟨hgh, hle'⟩
    · exact .inl (by omega)
    · exact .inr ⟨hfg.trans hgh, String.le_trans hle hle'⟩

theorem isLE_compare_total (f g : Field) : ((f.compare g).isLE || (g.compare f).isLE) = true := by
  rw [Bool.or_eq_true, isLE_compare_iff, isLE_compare_iff]
  rcases Nat.lt_trichotomy f.tag.rank g.tag.rank with hlt | heq | hgt
  · exact .inl (.inl hlt)
  · exact (String.le_total f.contents g.contents).imp (fun hle => .inr ⟨heq, hle⟩)
      fun hle => .inr ⟨heq.symm, hle⟩
  · exact .inr (.inl hgt)

/-- Fields that come neither before nor behind each other are the same. -/
theorem isLE_compare_antisymm (hfg : (f.compare g).isLE = true) (hgf : (g.compare f).isLE = true) :
    f = g := by
  rw [isLE_compare_iff] at *
  have hrank : f.tag.rank = g.tag.rank := by omega
  obtain ⟨_, hfg⟩ := hfg.resolve_left (by omega)
  obtain ⟨_, hgf⟩ := hgf.resolve_left (by omega)
  obtain ⟨tag, contents⟩ := f
  obtain ⟨tag', contents'⟩ := g
  obtain rfl := Tag.eq_of_rank_eq hrank
  obtain rfl := String.le_antisymm hfg hgf
  rfl

end

/-! ## Covered fields -/

/-- A field that counts for a checksum. -/
def Covered (excluded : List Tag) (suppressLocal : Bool) (f : Field) : Prop :=
  f.tag ∉ excluded ∧ ¬(suppressLocal = true ∧ f.tag.isLocal = true)

instance (excluded : List Tag) (suppressLocal : Bool) :
    DecidablePred (Covered excluded suppressLocal) :=
  fun f => inferInstanceAs (Decidable (f.tag ∉ excluded ∧ ¬(suppressLocal = true ∧ f.tag.isLocal = true)))

/-- What is hashed of a field. -/
def hashed (f : Field) : Bytes := f.tag.bytes ++ Utf8.encode f.contents

end Field

namespace Record

section

variable {r s : Record} {excluded : List Tag} {suppressLocal : Bool}

/-- The fields of a record that count for a checksum, as they stand in it. -/
def covered (r : Record) (excluded : List Tag) (suppressLocal : Bool) : List Field :=
  r.fields.filter (Field.Covered excluded suppressLocal)

theorem checksumFields_eq_mergeSort : r.checksumFields excluded suppressLocal =
    (r.covered excluded suppressLocal).mergeSort fun f g => (f.compare g).isLE := by
  rw [checksumFields, covered]
  congr 1
  apply List.filter_congr
  intro f _
  simp [Field.Covered]

theorem checksumFields_perm :
    (r.checksumFields excluded suppressLocal).Perm (r.covered excluded suppressLocal) :=
  checksumFields_eq_mergeSort ▸ List.mergeSort_perm _ _

/-- The fields are taken in the one order that they have by tag and contents. -/
theorem checksumFields_eq_iff {fs : List Field} : r.checksumFields excluded suppressLocal = fs ↔
    (fs.Pairwise fun f g => (f.compare g).isLE = true) ∧ fs.Perm (r.covered excluded suppressLocal) := by
  have hsorted : (r.checksumFields excluded suppressLocal).Pairwise
      fun f g => (f.compare g).isLE = true := by
    rw [checksumFields_eq_mergeSort]
    exact List.pairwise_mergeSort (fun f g h => Field.isLE_compare_trans (f := f) (g := g) (h := h))
      Field.isLE_compare_total _
  constructor
  · rintro rfl
    exact ⟨hsorted, checksumFields_perm⟩
  · rintro ⟨hfs, hperm⟩
    exact (checksumFields_perm.trans hperm.symm).eq_of_pairwise
      (fun f g _ _ => Field.isLE_compare_antisymm (f := f) (g := g)) hsorted hfs

theorem checksumFields_eq_checksumFields_iff :
    r.checksumFields excluded suppressLocal = s.checksumFields excluded suppressLocal ↔
      (r.covered excluded suppressLocal).Perm (s.covered excluded suppressLocal) := by
  constructor
  · intro h
    have hperm : (r.checksumFields excluded suppressLocal).Perm (r.covered excluded suppressLocal) :=
      checksumFields_perm
    rw [h] at hperm
    exact hperm.symm.trans checksumFields_perm
  · intro h
    rw [checksumFields_eq_iff]
    exact ⟨(checksumFields_eq_iff.1 rfl).1, checksumFields_perm.trans h.symm⟩

end

/-! ## What makes no difference -/

/-- **A checksum depends on the leader and the covered fields alone**, whatever their order and whatever
other fields there are. -/
theorem checksum_eq_of_perm {r s : Record} (hleader : r.leader.bytes = s.leader.bytes)
    (excluded : List Tag) (suppressLocal : Bool)
    (h : (r.covered excluded suppressLocal).Perm (s.covered excluded suppressLocal)) :
    r.checksum excluded suppressLocal = s.checksum excluded suppressLocal := by
  have hinput : r.checksumInput excluded suppressLocal = s.checksumInput excluded suppressLocal := by
    rw [checksumInput, checksumInput, hleader, checksumFields_eq_checksumFields_iff.2 h]
  rw [checksum, checksum, hinput]

/-- A record that is stamped with a date and has a local field, and its other fields the other way round. -/
theorem checksum_eq_of_perm_stamped :
    let leader := Leader.fresh .languageMaterial .monographOrItem
    let stamp : Tag := { first := 0x30, second := 0x30, third := 0x35 }
    let title : Field := ⟨Tag.titleStatement, "10\x1FaA"⟩
    let carrier : Field := ⟨Tag.carrierType, "  \x1FbB"⟩
    let r := ofParts leader [title, carrier, title]
    let s := ofParts leader [⟨stamp, "20240101"⟩, carrier, title, title, ⟨Tag.localBlock, "  \x1F0852  "⟩]
    (r.covered [stamp] true).Perm (s.covered [stamp] true) ∧
      r.checksum [stamp] true = s.checksum [stamp] true := by
  intro leader stamp title carrier r s
  have hr : r.covered [stamp] true = [title, carrier, title] := rfl
  have hs : s.covered [stamp] true = [carrier, title, title] := rfl
  have hperm : (r.covered [stamp] true).Perm (s.covered [stamp] true) := by
    rw [hr, hs]
    exact .swap ..
  have hleader : r.leader.bytes = s.leader.bytes := congrArg Leader.bytes (rfl : leader = leader)
  exact ⟨hperm, checksum_eq_of_perm hleader [stamp] true hperm⟩

/-! ## What makes a difference -/

/-- Where the lists part, a field of the first one goes on behind the contents of the field of the second one
that has the same tag. Up to three bytes of what follows are those of the tag that comes next in the second. -/
def RunsOn (fs gs : List Field) : Prop :=
  ∃ before f rest g next later extra, fs = before ++ f :: rest ∧ gs = before ++ g :: next :: later ∧
    f.tag = g.tag ∧ Utf8.encode f.contents = Utf8.encode g.contents ++ extra ∧ extra ≠ [] ∧
    extra.take 3 <+: next.tag.bytes

theorem RunsOn.cons {fs gs : List Field} (h : RunsOn fs gs) (f : Field) : RunsOn (f :: fs) (f :: gs) := by
  obtain ⟨before, f', rest, g, next, later, extra, rfl, rfl, hextra⟩ := h
  exact ⟨f :: before, f', rest, g, next, later, extra, rfl, rfl, hextra⟩

/-- A field with longer contents takes in the start of what comes next on the other side. -/
private theorem runsOn_of_longer {f g : Field} {fs gs : List Field} {extra : Bytes} (htag : f.tag = g.tag)
    (hcontents : Utf8.encode f.contents = Utf8.encode g.contents ++ extra) (hextra : extra ≠ [])
    (hrest : gs.flatMap Field.hashed = extra ++ fs.flatMap Field.hashed) : RunsOn (f :: fs) (g :: gs) := by
  cases gs with
  | nil => exact absurd (List.append_eq_nil_iff.1 hrest.symm).1 hextra
  | cons next later =>
    refine ⟨[], f, fs, g, next, later, extra, rfl, rfl, htag, hcontents, hextra, ?_⟩
    have hhead := congrArg (List.take 3) hrest
    rw [List.flatMap_cons, Field.hashed, List.append_assoc, List.take_left' next.tag.length_bytes,
      List.take_append] at hhead
    exact ⟨_, hhead.symm⟩

/-- Lists that are hashed from the same bytes are equal, or they part where a field of one runs on. -/
theorem eq_or_runsOn {fs gs : List Field} (h : fs.flatMap Field.hashed = gs.flatMap Field.hashed) :
    fs = gs ∨ RunsOn fs gs ∨ RunsOn gs fs := by
  induction fs generalizing gs with
  | nil =>
    cases gs with
    | nil => exact .inl rfl
    | cons g gs => cases congrArg List.length h
  | cons f fs ih =>
    cases gs with
    | nil => cases congrArg List.length h
    | cons g gs =>
      simp only [List.flatMap_cons, Field.hashed, List.append_assoc] at h
      obtain ⟨hbytes, h⟩ := List.append_inj h rfl
      have htag : f.tag = g.tag := by
        have hsome := Tag.ofBytes?_bytes f.tag
        rw [hbytes, Tag.ofBytes?_bytes] at hsome
        exact (Option.some.inj hsome).symm
      by_cases hcontents : Utf8.encode f.contents = Utf8.encode g.contents
      · obtain rfl : f = g := by
          cases f
          cases g
          cases htag
          cases Utf8.encode_injective hcontents
          rfl
        rcases ih (List.append_cancel_left h) with rfl | hfs | hgs
        · exact .inl rfl
        · exact .inr (.inl (hfs.cons f))
        · exact .inr (.inr (hgs.cons f))
      · rcases List.append_eq_append_iff.1 h with ⟨extra, hg, hrest⟩ | ⟨extra, hf, hrest⟩
        · exact .inr (.inr (runsOn_of_longer htag.symm hg (fun hnil => hcontents (by simp [hg, hnil])) hrest))
        · exact .inr (.inl (runsOn_of_longer htag hf (fun hnil => hcontents (by simp [hf, hnil])) hrest))

section

variable {r s : Record} {excluded : List Tag} {suppressLocal : Bool}

theorem checksumInput_eq : r.checksumInput excluded suppressLocal =
    r.leader.bytes ++ (r.checksumFields excluded suppressLocal).flatMap Field.hashed := rfl

theorem length_checksumInput : (r.checksumInput excluded suppressLocal).length =
    24 + ((r.covered excluded suppressLocal).map fun f => 3 + f.contents.utf8ByteSize).sum := by
  have hlength (f : Field) : f.hashed.length = 3 + f.contents.utf8ByteSize := by
    rw [Field.hashed, List.length_append, Tag.length_bytes, Utf8.length_encode]
  rw [checksumInput_eq, List.length_append, Leader.length_bytes, List.length_flatMap,
    List.map_congr_left fun f _ => hlength f]
  congr 1
  exact (checksumFields_perm.map _).sum_nat

/-- The same bytes mean the same fields, unless one of them runs on. -/
theorem perm_or_runsOn (hleader : r.leader.bytes = s.leader.bytes)
    (h : r.checksumInput excluded suppressLocal = s.checksumInput excluded suppressLocal) :
    (r.covered excluded suppressLocal).Perm (s.covered excluded suppressLocal) ∨
      RunsOn (r.checksumFields excluded suppressLocal) (s.checksumFields excluded suppressLocal) ∨
      RunsOn (s.checksumFields excluded suppressLocal) (r.checksumFields excluded suppressLocal) := by
  rw [checksumInput_eq, checksumInput_eq, hleader] at h
  rw [← checksumFields_eq_checksumFields_iff]
  exact eq_or_runsOn (List.append_cancel_left h)

end

/-! ## One field changed -/

section

variable {excluded : List Tag} {suppressLocal : Bool} {before after : List Field} {f : Field}
  (r : Record) (contents : String)

/-- The record with other contents in a field. -/
def withContents (before : List Field) (f : Field) (after : List Field) : Record :=
  { r with fields := before ++ { f with contents } :: after }

variable {r contents}

theorem covered_of_fields_eq (hr : r.fields = before ++ f :: after)
    (hf : f.Covered excluded suppressLocal) : r.covered excluded suppressLocal =
      before.filter (Field.Covered excluded suppressLocal) ++
        f :: after.filter (Field.Covered excluded suppressLocal) := by
  rw [covered, hr, List.filter_append, List.filter_cons_of_pos (by simpa using hf)]

theorem not_perm_withContents (hr : r.fields = before ++ f :: after)
    (hf : f.Covered excluded suppressLocal) (hne : contents ≠ f.contents) :
    ¬(r.covered excluded suppressLocal).Perm
      ((r.withContents contents before f after).covered excluded suppressLocal) := by
  rw [covered_of_fields_eq hr hf, covered_of_fields_eq (f := { f with contents }) rfl hf]
  intro hperm
  have hcount := ((List.perm_append_left_iff _).1 hperm).count_eq f
  rw [List.count_cons_self, List.count_cons_of_ne] at hcount
  · omega
  · intro heq
    exact hne (congrArg Field.contents heq)

theorem utf8ByteSize_eq_of_withContents (hr : r.fields = before ++ f :: after)
    (hf : f.Covered excluded suppressLocal) (h : r.checksumInput excluded suppressLocal =
      (r.withContents contents before f after).checksumInput excluded suppressLocal) :
    contents.utf8ByteSize = f.contents.utf8ByteSize := by
  have hlength := congrArg List.length h
  rw [length_checksumInput, length_checksumInput, covered_of_fields_eq hr hf,
    covered_of_fields_eq (f := { f with contents }) rfl hf] at hlength
  simp only [List.map_append, List.map_cons, List.sum_append, List.sum_cons] at hlength
  omega

end

end Record

/-- Different messages with one digest. -/
def Sha1.Collision (m n : Bytes) : Prop := m ≠ n ∧ digest m = digest n

namespace Record

/-! ## Main result -/

/-- **What is hashed tells the covered fields, unless a field runs on into the next tag.** Then alone, or when
the hash collides, can records with other fields have the same checksum, and then alone can other contents
be hashed from the same bytes. They have to be of the same length. -/
theorem checksumInput_faithful (excluded : List Tag) (suppressLocal : Bool) :
    let covered (r : Record) := r.covered excluded suppressLocal
    let input (r : Record) := r.checksumInput excluded suppressLocal
    let Unclear (r s : Record) :=
      RunsOn (r.checksumFields excluded suppressLocal) (s.checksumFields excluded suppressLocal) ∨
        RunsOn (s.checksumFields excluded suppressLocal) (r.checksumFields excluded suppressLocal)
    (∀ r s : Record, r.leader.bytes = s.leader.bytes → input r = input s →
      (covered r).Perm (covered s) ∨ Unclear r s) ∧
    (∀ r s : Record, r.leader.bytes = s.leader.bytes →
      r.checksum excluded suppressLocal = s.checksum excluded suppressLocal →
        (covered r).Perm (covered s) ∨ Unclear r s ∨ Sha1.Collision (input r) (input s)) ∧
    ∀ (r : Record) (before : List Field) (f : Field) (after : List Field) (contents : String),
      r.fields = before ++ f :: after → f.Covered excluded suppressLocal → contents ≠ f.contents →
        let s := r.withContents contents before f after
        input r = input s → contents.utf8ByteSize = f.contents.utf8ByteSize ∧ Unclear r s := by
  refine ⟨fun r s => perm_or_runsOn, ?_, ?_⟩
  · intro r s hleader hchecksum
    by_cases hinput : r.checksumInput excluded suppressLocal = s.checksumInput excluded suppressLocal
    · exact (perm_or_runsOn hleader hinput).imp id .inl
    · exact .inr (.inr ⟨hinput, Sha1.hex_injective hchecksum⟩)
  · intro r before f after contents hr hf hne s hinput
    exact ⟨utf8ByteSize_eq_of_withContents hr hf hinput,
      (perm_or_runsOn (r := r) (s := s) rfl hinput).resolve_left (not_perm_withContents hr hf hne)⟩

/-- A record with two notes. The second one holds both the tag of notes and what could stand behind it. -/
def noted (contents : String) : Record :=
  ofParts (Leader.fresh .languageMaterial .monographOrItem) [⟨Tag.controlNumber, "1"⟩,
    ⟨Tag.physicalDescription, contents⟩,
    ⟨Tag.physicalDescription, "  \x1FaA300  \x1FaB300  \x1FaA"⟩]

private theorem checksumInput_noted : (noted "  \x1FaA300  \x1FaB").checksumInput [] false =
    (noted "  \x1FaB300  \x1FaA").checksumInput [] false := by
  have hfirst : (noted "  \x1FaA300  \x1FaB").checksumFields [] false =
      (noted "  \x1FaA300  \x1FaB").fields :=
    checksumFields_eq_iff.2 ⟨by decide, by decide⟩
  have hsecond : (noted "  \x1FaB300  \x1FaA").checksumFields [] false =
      [⟨Tag.controlNumber, "1"⟩, ⟨Tag.physicalDescription, "  \x1FaA300  \x1FaB300  \x1FaA"⟩,
        ⟨Tag.physicalDescription, "  \x1FaB300  \x1FaA"⟩] :=
    checksumFields_eq_iff.2 ⟨by decide, by decide⟩
  rw [checksumInput_eq, checksumInput_eq, hfirst, hsecond]
  decide

/-- Other contents of the same length, in a record that is valid with either of them. -/
theorem checksumInput_faithful_noted :
    let r := noted "  \x1FaA300  \x1FaB"
    let s := noted "  \x1FaB300  \x1FaA"
    r.isValid = true ∧ s.isValid = true ∧
      r.checksumInput [] false = s.checksumInput [] false ∧
      (RunsOn (r.checksumFields [] false) (s.checksumFields [] false) ∨
        RunsOn (s.checksumFields [] false) (r.checksumFields [] false)) := by
  intro r s
  have hinput := checksumInput_noted
  obtain ⟨_, _, hchanged⟩ := checksumInput_faithful [] false
  obtain ⟨_, hunclear⟩ := hchanged r [⟨Tag.controlNumber, "1"⟩]
    ⟨Tag.physicalDescription, "  \x1FaA300  \x1FaB"⟩
    [⟨Tag.physicalDescription, "  \x1FaA300  \x1FaB300  \x1FaA"⟩] "  \x1FaB300  \x1FaA" rfl (by decide)
    (by decide) hinput
  exact ⟨by decide, by decide, hinput, hunclear⟩

/-- What is hashed does not always tell the covered fields, nor that one of them was changed. -/
theorem checksumInput_ambiguous :
    (¬∀ (r s : Record) (excluded : List Tag) (suppressLocal : Bool), r.leader.bytes = s.leader.bytes →
      r.checksumInput excluded suppressLocal = s.checksumInput excluded suppressLocal →
        (r.covered excluded suppressLocal).Perm (s.covered excluded suppressLocal)) ∧
    ¬∀ (r : Record) (before : List Field) (f : Field) (after : List Field) (contents : String)
      (excluded : List Tag) (suppressLocal : Bool), r.fields = before ++ f :: after →
        f.Covered excluded suppressLocal → contents ≠ f.contents →
          r.checksumInput excluded suppressLocal ≠
            (r.withContents contents before f after).checksumInput excluded suppressLocal := by
  refine ⟨fun h => ?_, fun h => ?_⟩
  · have hperm := h (noted "  \x1FaA300  \x1FaB") (noted "  \x1FaB300  \x1FaA") [] false rfl
      checksumInput_noted
    exact absurd hperm (by decide)
  · exact h (noted "  \x1FaA300  \x1FaB") [⟨Tag.controlNumber, "1"⟩]
      ⟨Tag.physicalDescription, "  \x1FaA300  \x1FaB"⟩
      [⟨Tag.physicalDescription, "  \x1FaA300  \x1FaB300  \x1FaA"⟩] "  \x1FaB300  \x1FaA" [] false rfl
      (by decide) (by decide) checksumInput_noted

end Record

end Marc21
