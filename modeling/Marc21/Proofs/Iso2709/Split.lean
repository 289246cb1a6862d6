import Mathlib.Data.List.Chain
import Marc21.Iso2709.Split
import Marc21.Proofs.Iso2709.Physical

/-!
Splitting loses nothing and repeats only the first field. `Divides` and `Carries` describe the parts of a
record, `parts_divides` shows that the loop makes such parts, and the rest is read off the description.
The step of the loop that would drop a field never comes into play: a part with a copy of the first field
has room for any other.
-/

namespace Marc21.Iso2709

/-- What each part carries of the record. The copy at the front of a later part does not count. -/
def ownFields : List Part → List (List Field)
  | [] => []
  | p :: ps => p.fields :: ps.map fun q => q.fields.tail

/-- A part with the right length, below the limit. -/
structure Part.Sound (p : Part) : Prop where
  size_eq : p.size = exactSize p.fields
  size_lt : p.size < recordLimit

/-- A part of short fields is as long as it was counted. -/
theorem Part.length_encode {p : Part} (hp : p.Sound)
    (hfs : ∀ f ∈ p.fields, f.contents.utf8ByteSize ≤ contentsLimit) (l : Leader) :
    (p.encode l).length = p.size := by
  have hlt : exactSize p.fields < 99999 := hp.size_eq ▸ hp.size_lt
  rw [encode, Iso2709.length_encode l hfs (Nat.le_of_lt hlt), hp.size_eq]

/-- A part has no room for `f`. -/
def Part.Full (p : Part) (f : Field) : Prop := recordLimit ≤ exactSize (p.fields ++ [f])

/-- Parts that carry the given fields on, each behind a copy of `first`. None has room for the field
that the next one adds. -/
inductive Carries (first : Field) : List Field → List Part → Prop where
  | done : Carries first [] []
  | part {f : Field} {taken left : List Field} {p : Part} {ps : List Part}
      (fields : p.fields = first :: f :: taken) (sound : p.Sound) (full : ∀ g ∈ left.head?, p.Full g)
      (rest : Carries first left ps) : Carries first (f :: taken ++ left) (p :: ps)

/-- Parts that a record of the given fields is divided into. -/
inductive Divides : List Field → List Part → Prop where
  | empty : Divides [] [⟨[], 26⟩]
  | parts {first : Field} {taken left : List Field} {p : Part} {ps : List Part}
      (fields : p.fields = first :: taken) (sound : p.Sound) (full : ∀ g ∈ left.head?, p.Full g)
      (rest : Carries first left ps) : Divides (first :: taken ++ left) (p :: ps)

/-! ## The loop -/

/-- A part takes what fits and leaves the rest, and it does not leave what would fit. -/
theorem fill_spec {size total : Nat} {fs taken left : List Field}
    (h : fill size fs = (taken, total, left)) :
    fs = taken ++ left ∧ total = size + totalSize taken ∧ (size < recordLimit → total < recordLimit) ∧
      ∀ g ∈ left.head?, recordLimit ≤ total + g.size := by
  fun_induction fill size fs generalizing taken total left with
  | case1 size =>
    cases h
    simp
  | case2 size f fs hfits taken' total' left' hfill ih =>
    cases h
    obtain ⟨hfs, htotal, hlt, hfull⟩ := ih hfill
    refine ⟨?_, ?_, ?_, hfull⟩
    · rw [hfs, List.cons_append]
    · rw [htotal, totalSize_cons, Nat.add_assoc]
    · intro _
      exact hlt hfits
  | case3 size f fs hfull =>
    cases h
    refine ⟨rfl, rfl, id, ?_⟩
    intro g hg
    cases hg
    exact Nat.not_lt.1 hfull

/-- A part that has room for the next field takes it. -/
theorem fill_progress {size total : Nat} {f : Field} {fs taken left : List Field}
    (hfits : size + f.size < recordLimit) (h : fill size (f :: fs) = (taken, total, left)) :
    ∃ taken', taken = f :: taken' := by
  rw [fill, if_pos hfits] at h
  exact ⟨_, (Prod.mk.inj h).1.symm⟩

theorem advance_append (f : Field) (taken left : List Field) :
    advance (f :: taken ++ left) left = left := by
  rw [advance, if_pos]
  rw [List.length_append, List.length_cons]
  omega

theorem size_le_of_length_le {f : Field} (h : f.contents.utf8ByteSize ≤ contentsLimit) :
    f.size ≤ 10011 := by
  unfold contentsLimit at h
  rw [Field.size]
  omega

/-- What `fill` makes of a part that starts with `copy` and has room for the next field. -/
theorem part_of_fill (copy : List Field) {total : Nat} {f : Field} {fs taken left : List Field}
    (hfits : exactSize copy + f.size < recordLimit)
    (h : fill (exactSize copy) (f :: fs) = (taken, total, left)) :
    ∃ taken', taken = f :: taken' ∧ f :: fs = f :: taken' ++ left ∧
      (Part.mk (copy ++ f :: taken') total).Sound ∧
      ∀ g ∈ left.head?, (Part.mk (copy ++ f :: taken') total).Full g := by
  obtain ⟨taken', rfl⟩ := fill_progress hfits h
  obtain ⟨hfs, htotal, hlt, hfull⟩ := fill_spec h
  have hsize : total = exactSize (copy ++ f :: taken') := by
    rw [htotal, exactSize, exactSize, totalSize_append, Nat.add_assoc]
  refine ⟨taken', rfl, hfs, ⟨hsize, hlt (Nat.lt_of_le_of_lt (Nat.le_add_right _ _) hfits)⟩, ?_⟩
  intro g hg
  have := hfull g hg
  simp only [Part.Full, exactSize, totalSize_append, totalSize_cons, totalSize_nil] at hsize ⊢
  omega

theorem continuations_carries {first : Field} {fs : List Field} (hfirst : first.size ≤ 10011)
    (hfs : ∀ f ∈ fs, f.size ≤ 10011) : Carries first fs (continuations first fs) := by
  fun_induction continuations first fs with
  | case1 => exact .done
  | case2 fs hne taken size left hfill ih =>
    obtain ⟨f, fs, rfl⟩ := List.exists_cons_of_ne_nil hne
    have hfits : exactSize [first] + f.size < recordLimit := by
      have := hfs f List.mem_cons_self
      simp only [exactSize, totalSize_cons, totalSize_nil, recordLimit]
      omega
    obtain ⟨taken', rfl, happend, hsound, hfull⟩ := part_of_fill [first] hfits hfill
    rw [happend] at hfs ih ⊢
    rw [advance_append] at ih ⊢
    exact .part rfl hsound hfull (ih fun g hg => hfs g (List.mem_append_right _ hg))

theorem parts_divides {fs : List Field} (hfs : ∀ f ∈ fs, f.size ≤ 10011) :
    Divides fs (parts fs) := by
  cases fs with
  | nil => exact .empty
  | cons first fs =>
    have hfirst : first.size ≤ 10011 := hfs first List.mem_cons_self
    have hfits : exactSize [] + first.size < recordLimit := by
      simp only [exactSize, totalSize_nil, recordLimit]
      omega
    rcases hfill : fill 26 (first :: fs) with ⟨taken, total, left⟩
    obtain ⟨taken', rfl, happend, hsound, hfull⟩ := part_of_fill [] hfits hfill
    simp only [parts, hfill]
    rw [happend] at hfs ⊢
    rw [advance_append]
    have hrest := continuations_carries hfirst fun g hg => hfs g (List.mem_append_right _ hg)
    exact .parts rfl hsound hfull hrest

/-! ## What the parts carry -/

section

variable {first : Field} {fs : List Field} {p : Part} {ps : List Part}

theorem Carries.sound (h : Carries first fs ps) : ∀ p ∈ ps, p.Sound := by
  induction h with
  | done => simp
  | part fields sound full rest ih => exact List.forall_mem_cons.2 ⟨sound, ih⟩

theorem Divides.sound (h : Divides fs ps) : ∀ p ∈ ps, p.Sound := by
  cases h with
  | empty => exact List.forall_mem_singleton.2 ⟨rfl, by decide⟩
  | parts fields sound full rest => exact List.forall_mem_cons.2 ⟨sound, rest.sound⟩

/-- Behind its copy of the first field each part carries on something new. -/
theorem Carries.fields_eq (h : Carries first fs ps) :
    ∀ p ∈ ps, ∃ f taken, p.fields = first :: f :: taken := by
  induction h with
  | done => simp
  | part fields sound full rest ih => exact List.forall_mem_cons.2 ⟨⟨_, _, fields⟩, ih⟩

theorem Carries.mem_fields (h : Carries first fs ps) :
    ∀ p ∈ ps, ∀ f ∈ p.fields, f = first ∨ f ∈ fs := by
  induction h with
  | done => simp
  | @part g taken left p ps fields sound full rest ih =>
    rw [List.forall_mem_cons]
    constructor
    · intro f hf
      rw [fields, List.mem_cons] at hf
      exact hf.imp id (List.mem_append_left left)
    · intro q hq f hf
      exact (ih q hq f hf).imp id (List.mem_append_right (g :: taken))

theorem Divides.mem_fields (h : Divides fs ps) : ∀ p ∈ ps, ∀ f ∈ p.fields, f ∈ fs := by
  cases h with
  | empty => simp
  | @parts first taken left p ps fields sound full rest =>
    rw [List.forall_mem_cons]
    constructor
    · intro f hf
      rw [fields] at hf
      exact List.mem_append_left left hf
    · intro q hq f hf
      rcases rest.mem_fields q hq f hf with rfl | hf
      · exact List.mem_cons_self
      · exact List.mem_append_right (first :: taken) hf

theorem Carries.flatten (h : Carries first fs ps) : (ps.map fun p => p.fields.tail).flatten = fs := by
  induction h with
  | done => rfl
  | part fields sound full rest ih => rw [List.map_cons, List.flatten_cons, ih, fields, List.tail_cons]

theorem Divides.flatten (h : Divides fs ps) : (ownFields ps).flatten = fs := by
  cases h with
  | empty => rfl
  | parts fields sound full rest => rw [ownFields, List.flatten_cons, rest.flatten, fields]

/-- A part leaves off only where the next field would be too much. -/
theorem Carries.isChain (h : Carries first fs ps) (hp : ∀ g ∈ fs.head?, p.Full g) :
    (p :: ps).IsChain fun p q => ∃ f ∈ q.fields.tail.head?, p.Full f := by
  induction h generalizing p with
  | done => exact List.isChain_singleton p
  | part fields sound full rest ih =>
    rw [List.isChain_cons_cons]
    refine ⟨⟨_, ?_, hp _ rfl⟩, ih full⟩
    rw [fields]
    rfl

theorem Carries.sum_size (h : Carries first fs ps) :
    (ps.map Part.size).sum = totalSize fs + ps.length * (26 + first.size) := by
  induction h with
  | done => simp
  | @part f taken left p ps fields sound full rest ih =>
    rw [List.map_cons, List.sum_cons, ih, sound.size_eq, fields, List.length_cons, Nat.succ_mul]
    simp only [exactSize, totalSize_append, totalSize_cons]
    omega

theorem Carries.length_le (h : Carries first fs ps) : ps.length ≤ fs.length := by
  induction h with
  | done => exact Nat.le_refl 0
  | part fields sound full rest ih =>
    rw [List.length_cons, List.length_append, List.length_cons]
    omega

theorem Divides.ownFields_ne_nil (h : Divides fs ps) (hfs : fs ≠ []) :
    ∀ own ∈ ownFields ps, own ≠ [] := by
  cases h with
  | empty => exact absurd rfl hfs
  | @parts first taken left p ps fields sound full rest =>
    rw [ownFields, List.forall_mem_cons, fields]
    refine ⟨List.cons_ne_nil first taken, ?_⟩
    intro own hown
    obtain ⟨q, hq, rfl⟩ := List.mem_map.1 hown
    obtain ⟨f, _, hfields⟩ := rest.fields_eq q hq
    rw [hfields]
    exact List.cons_ne_nil f _

theorem Divides.head?_eq (h : Divides fs ps) : ∀ p ∈ ps.tail, p.fields.head? = fs.head? := by
  cases h with
  | empty => simp
  | parts fields sound full rest =>
    intro q hq
    obtain ⟨f, _, hfields⟩ := rest.fields_eq q hq
    rw [hfields]
    rfl

theorem Divides.isChain (h : Divides fs ps) :
    ps.IsChain fun p q => ∃ f ∈ q.fields.tail.head?, p.Full f := by
  cases h with
  | empty => exact List.isChain_singleton _
  | parts fields sound full rest => exact rest.isChain full

/-- Only the repeated first fields and the leaders and terminators of later parts come on top. -/
theorem Divides.sum_size (h : Divides fs ps) : (ps.map Part.size).sum =
    exactSize fs + (ps.length - 1) * (26 + fs.head?.elim 0 Field.size) := by
  cases h with
  | empty => rfl
  | @parts first taken left p ps fields sound full rest =>
    rw [List.map_cons, List.sum_cons, rest.sum_size, sound.size_eq, fields, List.length_cons]
    simp only [exactSize, totalSize_append, totalSize_cons, Nat.add_sub_cancel, List.cons_append,
      List.head?_cons, Option.elim_some]
    omega

theorem Divides.length_eq_one_iff (h : Divides fs ps) :
    ps.length = 1 ↔ exactSize fs < recordLimit := by
  cases h with
  | empty => decide
  | @parts first taken left p ps fields sound full rest =>
    constructor
    · intro hone
      obtain rfl : ps = [] := List.length_eq_zero_iff.1 (Nat.succ.inj hone)
      cases rest with
      | done =>
        rw [List.append_nil, ← fields, ← sound.size_eq]
        exact sound.size_lt
    · intro hlt
      cases rest with
      | done => rfl
      | @part f taken' left' q qs fields' sound' full' rest' =>
        have hfull := full f rfl
        rw [Part.Full, fields] at hfull
        simp only [exactSize, totalSize_append, totalSize_cons, totalSize_nil] at hfull hlt
        omega

theorem Divides.length_le (h : Divides fs ps) : 1 ≤ ps.length ∧ ps.length ≤ max 1 fs.length := by
  cases h with
  | empty => decide
  | parts fields sound full rest =>
    have := rest.length_le
    simp only [List.length_cons, List.length_append]
    omega

end

/-! ## Main result -/

/-- What the physical records of a record owe to it: they end, each is below the limit and holds
something new, together they hold the fields once and in order, and they are as few as can be. -/
structure Faithful (r : Record) (ps : List Part) (chunks : List Bytes) : Prop where
  encoded : chunks = ps.map fun p => p.encode r.leader
  nonempty : 1 ≤ chunks.length
  length_le : chunks.length ≤ max 1 r.fields.length
  length_lt : ∀ chunk ∈ chunks, chunk.length < recordLimit
  repeated : ∀ p ∈ ps.tail, p.fields.head? = r.fields.head?
  carried : (ownFields ps).flatten = r.fields
  progress : r.fields ≠ [] → ∀ own ∈ ownFields ps, own ≠ []
  greedy : ps.IsChain fun p q => ∃ f ∈ q.fields.tail.head?, p.Full f
  single : chunks.length = 1 ↔ r.size < recordLimit
  single_length : ∀ chunk, chunks = [chunk] → chunk.length = r.size
  total : (chunks.map List.length).sum =
    r.size + (chunks.length - 1) * (26 + r.fields.head?.elim 0 Field.size)

/-- **Splitting loses and duplicates nothing.** -/
theorem split_faithful {r : Record} {chunks : List Bytes} (hsize : r.size = exactSize r.fields)
    (h : split r = .ok chunks) : Faithful r (parts r.fields) chunks := by
  have hfs : ∀ f ∈ r.fields, f.contents.utf8ByteSize ≤ contentsLimit := by
    intro f hf
    unfold split at h
    split at h
    · cases h
    · next hnone =>
      have hle := List.find?_eq_none.1 hnone f hf
      exact Nat.not_lt.1 (by simpa using hle)
  have hchunks : chunks = (parts r.fields).map fun p => p.encode r.leader := by
    unfold split at h
    split at h
    · cases h
    · exact (Except.ok.inj h).symm
  have hdivides := parts_divides fun f hf => size_le_of_length_le (hfs f hf)
  have hlength : ∀ p ∈ parts r.fields, (p.encode r.leader).length = p.size := fun p hp =>
    Part.length_encode (hdivides.sound p hp) (fun f hf => hfs f (hdivides.mem_fields p hp f hf)) r.leader
  have hlengths : chunks.map List.length = (parts r.fields).map Part.size := by
    rw [hchunks, List.map_map]
    apply List.map_congr_left
    intro p hp
    rw [Function.comp_apply, hlength p hp]
  have hcount : chunks.length = (parts r.fields).length := by
    rw [hchunks, List.length_map]
  refine ⟨hchunks, ?_, ?_, ?_, hdivides.head?_eq, hdivides.flatten, hdivides.ownFields_ne_nil,
    hdivides.isChain, ?_, ?_, ?_⟩
  · rw [hcount]
    exact hdivides.length_le.1
  · rw [hcount]
    exact hdivides.length_le.2
  · rw [hchunks]
    intro chunk hchunk
    obtain ⟨p, hp, rfl⟩ := List.mem_map.1 hchunk
    rw [hlength p hp]
    exact (hdivides.sound p hp).size_lt
  · rw [hcount, hsize]
    exact hdivides.length_eq_one_iff
  · rintro chunk rfl
    have hsum := hdivides.sum_size
    rw [← hlengths, ← hcount] at hsum
    simpa [hsize] using hsum
  · rw [hlengths, hcount, hsize]
    exact hdivides.sum_size

/-- A record of a control number and some notes of one length. -/
def withNotes (count length : Nat) : Record :=
  Record.ofParts (Leader.fresh .languageMaterial .monographOrItem)
    (⟨Tag.controlNumber, "1"⟩ ::
      List.replicate count ⟨Tag.titleStatement, String.ofList (List.replicate length 'a')⟩)

private theorem utf8ByteSize_replicate (n : Nat) :
    (String.ofList (List.replicate n 'a')).utf8ByteSize = n := by
  induction n with
  | zero => rfl
  | succ n ih =>
    rw [List.replicate_succ, String.ofList_cons, String.utf8ByteSize_append, ih,
      String.utf8ByteSize_singleton]
    exact Nat.add_comm 1 n

theorem split_withNotes (count : Nat) {length : Nat} (h : length ≤ contentsLimit) :
    split (withNotes count length) = .ok ((parts (withNotes count length).fields).map fun p =>
      p.encode (withNotes count length).leader) := by
  have hnone : (withNotes count length).fields.find?
      (fun f => contentsLimit < f.contents.utf8ByteSize) = none := by
    rw [List.find?_eq_none]
    intro f hf
    rw [withNotes, Record.ofParts, List.mem_cons, List.mem_replicate] at hf
    rcases hf with rfl | ⟨_, rfl⟩
    · decide
    · rw [utf8ByteSize_replicate, decide_eq_true_eq]
      exact Nat.not_lt.2 h
  rw [split, hnone]

theorem size_eq_withNotes (count length : Nat) :
    (withNotes count length).size = exactSize (withNotes count length).fields := rfl

theorem size_withNotes (count length : Nat) :
    (withNotes count length).size = 40 + count * (13 + length) := by
  have hnotes : totalSize (List.replicate count
      ⟨Tag.titleStatement, String.ofList (List.replicate length 'a')⟩) = count * (13 + length) := by
    rw [totalSize_eq_sum, List.map_replicate, List.sum_replicate_nat, Field.size,
      utf8ByteSize_replicate]
    congr 1
    omega
  rw [withNotes, Record.ofParts, exactSize, totalSize_cons, hnotes, ← Nat.add_assoc]
  rfl

/-- Twelve notes of 9000 bytes take more than one part. -/
theorem split_faithful_withNotes : ∃ chunks, split (withNotes 12 9000) = .ok chunks ∧
    chunks.length ≠ 1 ∧ Faithful (withNotes 12 9000) (parts (withNotes 12 9000).fields) chunks := by
  have hsplit := split_withNotes 12 (show 9000 ≤ contentsLimit by decide)
  have hfaithful := split_faithful (size_eq_withNotes 12 9000) hsplit
  refine ⟨_, hsplit, ?_, hfaithful⟩
  rw [Ne, hfaithful.single, size_withNotes]
  decide

end Marc21.Iso2709
