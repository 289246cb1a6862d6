import Mathlib.Data.List.Basic
import Marc21.File.Tree

/-!
What changes in a tree when a file is written, made or moved. Writing touches the bytes of one file
(`SameBut`), also where it fails. Making or moving a file leaves all folders, so what was found before is found
as before.
-/

namespace Marc21.FileTree

/-! ## Bytes of files -/

section

variable {t u v : FileTree} {id other : FileId} {content : Array UInt8} {bs cs : Bytes}

theorem bytes_setBytes (h : id < t.files.size) : (t.setBytes id content).bytes id = content := by
  simp [bytes, setBytes, Array.getD_eq_getD_getElem?, h]

theorem bytes_setBytes_of_ne (h : other ≠ id) : (t.setBytes id content).bytes other = t.bytes other := by
  simp [bytes, setBytes, Array.getD_eq_getD_getElem?, h.symm]

/-- A tree is its nodes, the bytes of its files and what is wrong with the next writes. -/
theorem eq_of_bytes (hnodes : u.nodes = t.nodes) (hsize : u.files.size = t.files.size)
    (hbytes : ∀ id, u.bytes id = t.bytes id) (hfaults : u.faults = t.faults) : u = t := by
  obtain ⟨nodes, files, faults⟩ := t
  obtain ⟨nodes', files', faults'⟩ := u
  rw [mk.injEq]
  refine ⟨hnodes, Array.ext hsize fun i hi hi' => ?_, hfaults⟩
  have hfile := hbytes i
  simp only [bytes, Array.getD, hi, hi', dif_pos] at hfile
  exact hfile

theorem setBytes_bytes : t.setBytes id (t.bytes id) = t := by
  refine eq_of_bytes rfl Array.size_setIfInBounds (fun other => ?_) rfl
  by_cases heq : other = id
  · subst heq
    by_cases hlt : other < t.files.size
    · exact bytes_setBytes hlt
    · simp [bytes, setBytes, hlt]
  · exact bytes_setBytes_of_ne heq

theorem append_nil : t.append id [] = t := by
  rw [append, show t.bytes id ++ ([] : Bytes) = t.bytes id from Array.appendList_nil, setBytes_bytes]

/-- Writing at the end of a file is appending to it. -/
theorem writeAt_size : t.writeAt id (t.bytes id).size bs = t.append id bs := by
  have hbehind : (t.bytes id).extract ((t.bytes id).size + bs.length) (t.bytes id).size = #[] :=
    Array.extract_empty_of_stop_le_start (Nat.le_add_right _ _)
  simp [writeAt, append, hbehind]

/-- Nothing differs but the bytes of one file, and what is wrong with the next writes. -/
structure SameBut (id : FileId) (t u : FileTree) : Prop where
  nodes : u.nodes = t.nodes
  size : u.files.size = t.files.size
  bytes : ∀ other, other ≠ id → u.bytes other = t.bytes other

theorem SameBut.refl (id : FileId) (t : FileTree) : SameBut id t t := ⟨rfl, rfl, fun _ _ => rfl⟩

theorem SameBut.trans (h : SameBut id t u) (k : SameBut id u v) : SameBut id t v where
  nodes := k.nodes.trans h.nodes
  size := k.size.trans h.size
  bytes other hne := (k.bytes other hne).trans (h.bytes other hne)

theorem sameBut_setBytes : SameBut id t (t.setBytes id content) where
  nodes := rfl
  size := Array.size_setIfInBounds
  bytes _ hne := bytes_setBytes_of_ne hne

theorem sameBut_pastWrite : SameBut id t t.pastWrite := ⟨rfl, rfl, fun _ _ => rfl⟩

theorem SameBut.eq_setBytes (h : SameBut id t u) (hlt : id < t.files.size) (hfaults : u.faults = t.faults) :
    u = t.setBytes id (u.bytes id) := by
  refine eq_of_bytes h.nodes (h.size.trans Array.size_setIfInBounds.symm) (fun other => ?_) hfaults
  by_cases heq : other = id
  · rw [heq, bytes_setBytes hlt]
  · rw [h.bytes other heq, bytes_setBytes_of_ne heq]

theorem bytes_append (h : id < t.files.size) : (t.append id bs).bytes id = t.bytes id ++ bs :=
  bytes_setBytes h

theorem append_append (h : id < t.files.size) :
    (t.append id bs).append id cs = t.append id (bs ++ cs) := by
  have hone : SameBut id t (t.append id bs) := sameBut_setBytes
  have htwo : SameBut id (t.append id bs) ((t.append id bs).append id cs) := sameBut_setBytes
  rw [(hone.trans htwo).eq_setBytes h rfl, bytes_append (hone.size ▸ h), bytes_append h, append]
  congr 1
  rw [← Array.toList_inj]
  simp

end

/-! ## The next write -/

section

variable {t : FileTree}

/-- No more goes through than there is, and all of it unless the write fails. -/
theorem nextWrite_spec (t : FileTree) (length : Nat) : (t.nextWrite length).1 ≤ length ∧
    ((t.nextWrite length).2 = .ok () → (t.nextWrite length).1 = length) := by
  rw [nextWrite]
  split
  · split
    · exact ⟨Nat.le_refl _, fun _ => rfl⟩
    · exact ⟨by omega, nofun⟩
  · exact ⟨Nat.le_refl _, fun _ => rfl⟩

theorem nextWrite_of_nil (h : t.faults = []) (length : Nat) : t.nextWrite length = (length, .ok ()) := by
  rw [nextWrite, h]

theorem pastWrite_of_nil (h : t.faults = []) : t.pastWrite = t :=
  eq_of_bytes rfl rfl (fun _ => rfl) (by rw [pastWrite, h]; rfl)

end

/-! ## Places -/

section

variable {t u : FileTree} {id : FileId} {path : String} {place other : Location}

theorem ne_nil_of_node? {node : Node} (h : t.node? place = some node) (hnode : node ≠ .folder) :
    place ≠ [] := by
  rintro rfl
  exact hnode (Option.some.inj h).symm

theorem node?_congr (h : u.nodes = t.nodes) : u.node? place = t.node? place := by
  rw [node?, node?, h]

theorem find_eq_file : t.find path = .ok (.file id) ↔ Path.wantsFolder path = false ∧
    ∃ place, t.locate path = .ok place ∧ t.node? place = some (.file id) := by
  rw [find]
  cases t.locate path with
  | error failure => simp [bind, Except.bind]
  | ok place =>
    simp only [bind, Except.bind, Except.ok.injEq, exists_eq_left']
    cases t.node? place with
    | none => simp
    | some node =>
      cases node with
      | folder => simp
      | file other => cases Path.wantsFolder path <;> simp

/-- A path leads to the same place as long as no folder is lost. -/
theorem locate_of_folders (h : ∀ place, t.node? place = some .folder → u.node? place = some .folder)
    (hlocate : t.locate path = .ok place) : u.locate path = .ok place := by
  have henter : ∀ {place name next}, t.enter place name = .ok next → u.enter place name = .ok next := by
    intro place name next hnext
    rw [enter] at hnext ⊢
    split at hnext
    · cases hnext
    · cases hnext
    · next hfolder =>
      rw [h place hfolder]
      exact hnext
  have hsteps : ∀ {steps : List String} {place next : Location}, steps.foldlM t.enter place = .ok next →
      steps.foldlM u.enter place = .ok next := by
    intro steps
    induction steps with
    | nil => exact fun hnext => hnext
    | cons name steps ih =>
      intro place next hnext
      rw [List.foldlM_cons] at hnext ⊢
      cases hfirst : t.enter place name with
      | error failure =>
        rw [hfirst] at hnext
        cases hnext
      | ok middle =>
        rw [hfirst] at hnext
        rw [henter hfirst]
        exact ih hnext
  unfold locate at hlocate ⊢
  split at hlocate
  · cases hlocate
  · split at hlocate
    · cases hlocate
    · split at hlocate
      · cases hlocate
      · next hnul hlimit hempty =>
        rw [if_neg hnul, if_neg hlimit, if_neg hempty]
        exact hsteps hlocate

/-- What is at a place that a path leads to is found by the path. -/
theorem find_of_locate (h : ∀ place, t.node? place = some .folder → u.node? place = some .folder)
    (hwants : Path.wantsFolder path = false) (hlocate : t.locate path = .ok place)
    (hnode : u.node? place = some (.file id)) : u.find path = .ok (.file id) :=
  find_eq_file.2 ⟨hwants, place, locate_of_folders h hlocate, hnode⟩

theorem SameBut.locate_eq (h : SameBut id t u) : u.locate path = t.locate path := by
  have henter : u.enter = t.enter := by
    funext place name
    rw [enter, enter, node?_congr h.nodes]
  rw [locate, locate, henter]

theorem SameBut.find_eq (h : SameBut id t u) : u.find path = t.find path := by
  rw [find, find, h.locate_eq]
  simp only [node?_congr h.nodes]

theorem read_of_find (h : t.find path = .ok (.file id)) : t.read path = .ok (t.bytes id) := by
  rw [read, h]
  rfl

end

/-! ## Well-formed trees -/

/-- Each file that a place holds is there. -/
structure WellFormed (t : FileTree) : Prop where
  lt_size : ∀ {place id}, t.node? place = some (.file id) → id < t.files.size

/-- No two places hold the file. -/
def Sole (t : FileTree) (id : FileId) : Prop :=
  ∀ place other, t.node? place = some (.file id) → t.node? other = some (.file id) → place = other

section

variable {t u : FileTree} {id : FileId} {path source target : String} {place other : Location}

theorem wellFormed_empty : empty.WellFormed := by
  constructor
  intro place id h
  rw [node?] at h
  split at h <;> cases h

theorem WellFormed.sameBut (h : t.WellFormed) (k : SameBut id t u) : u.WellFormed where
  lt_size hnode := by
    rw [k.size]
    exact h.lt_size (node?_congr k.nodes ▸ hnode)

theorem Sole.sameBut {file : FileId} (h : t.Sole file) (k : SameBut id t u) : u.Sole file :=
  fun place other hplace hother => h place other (node?_congr k.nodes ▸ hplace) (node?_congr k.nodes ▸ hother)

/-! ### Making a file -/

/-- A tree with a new file at a place. -/
def withFile (t : FileTree) (place : Location) : FileTree :=
  { t with nodes := (place, .file t.files.size) :: t.nodes, files := t.files.push #[] }

theorem obtain_eq_ok (h : t.obtain path = .ok (id, u)) : Path.wantsFolder path = false ∧
    ∃ place, t.locate path = .ok place ∧
      (t.node? place = some (.file id) ∧ u = t ∨
        t.node? place = none ∧ id = t.files.size ∧ u = t.withFile place) := by
  unfold obtain at h
  cases hlocate : t.locate path with
  | error failure =>
    rw [hlocate] at h
    cases h
  | ok place =>
    rw [hlocate] at h
    simp only [bind, Except.bind] at h
    split at h
    · cases h
    · next hnode =>
      split at h
      · cases h
      · next hwants =>
        cases h
        exact ⟨by simpa using hwants, place, rfl, .inl ⟨hnode, rfl⟩⟩
    · next hnode =>
      split at h
      · cases h
      · next hwants =>
        cases h
        exact ⟨by simpa using hwants, place, rfl, .inr ⟨hnode, rfl, rfl⟩⟩

theorem obtain_of_vacant (hwants : Path.wantsFolder path = false) (hlocate : t.locate path = .ok place)
    (hnode : t.node? place = none) : t.obtain path = .ok (t.files.size, t.withFile place) := by
  simp [obtain, hlocate, hnode, hwants, bind, Except.bind, withFile]

theorem node?_withFile (h : t.node? place = none) (other : Location) : (t.withFile place).node? other =
    if other = place then some (.file t.files.size) else t.node? other := by
  rw [node?] at h
  split at h
  · cases h
  · next hne =>
    unfold node? withFile
    by_cases heq : other = place
    · rw [if_neg (heq ▸ hne), if_pos heq, List.lookup_cons, heq, beq_self_eq_true]
    · simp only [if_neg heq, List.lookup_cons, beq_eq_false_iff_ne.2 heq]

theorem bytes_withFile (h : id < t.files.size) : (t.withFile place).bytes id = t.bytes id := by
  simp [bytes, withFile, Array.getD_eq_getD_getElem?, Array.getElem?_push, Nat.ne_of_lt h]

theorem WellFormed.withFile (h : t.WellFormed) (hnode : t.node? place = none) :
    (t.withFile place).WellFormed := by
  constructor
  intro other id hother
  rw [FileTree.withFile, Array.size_push]
  rw [node?_withFile hnode] at hother
  split at hother
  · cases hother
    exact Nat.lt_succ_self _
  · exact Nat.lt_succ_of_lt (h.lt_size hother)

/-- A new file is held by its own place alone. -/
theorem WellFormed.sole_withFile (h : t.WellFormed) (hnode : t.node? place = none) :
    (t.withFile place).Sole t.files.size := by
  have honly : ∀ other, (t.withFile place).node? other = some (.file t.files.size) → other = place := by
    intro other hother
    rw [node?_withFile hnode] at hother
    split at hother
    · next heq => exact heq
    · exact absurd (h.lt_size hother) (Nat.lt_irrefl _)
  intro first second hfirst hsecond
  exact (honly first hfirst).trans (honly second hsecond).symm

/-- A file that is there when another one is obtained stays where it is, and as it is. -/
structure Obtained (t : FileTree) (path : String) (id : FileId) (u : FileTree) : Prop where
  wellFormed : u.WellFormed
  find_eq : u.find path = .ok (.file id)
  node?_eq : ∀ {place node}, t.node? place = some node → u.node? place = some node
  bytes_eq : ∀ {other}, other < t.files.size → u.bytes other = t.bytes other
  faults_eq : u.faults = t.faults

theorem WellFormed.obtained (h : t.WellFormed) (hobtain : t.obtain path = .ok (id, u)) :
    Obtained t path id u := by
  obtain ⟨hwants, place, hlocate, ⟨hnode, rfl⟩ | ⟨hnode, rfl, rfl⟩⟩ := obtain_eq_ok hobtain
  · exact ⟨h, find_eq_file.2 ⟨hwants, place, hlocate, hnode⟩, fun hnode => hnode, fun _ => rfl, rfl⟩
  · have hkept : ∀ {other node}, t.node? other = some node →
        (t.withFile place).node? other = some node := by
      intro other node hother
      rw [node?_withFile hnode, if_neg, hother]
      rintro rfl
      rw [hnode] at hother
      cases hother
    refine ⟨h.withFile hnode, ?_, hkept, bytes_withFile, rfl⟩
    refine find_of_locate (fun _ => hkept) hwants hlocate ?_
    rw [node?_withFile hnode, if_pos rfl]

theorem Obtained.find_of_find {other : FileId} {elsewhere : String} (h : Obtained t path id u)
    (hfind : t.find elsewhere = .ok (.file other)) : u.find elsewhere = .ok (.file other) := by
  obtain ⟨hwants, place, hlocate, hnode⟩ := find_eq_file.1 hfind
  exact find_of_locate (fun _ => h.node?_eq) hwants hlocate (h.node?_eq hnode)

/-! ### Moving a file -/

/-- A tree with the node of one place at another. -/
def withMoved (t : FileTree) (left taken : Location) (node : Node) : FileTree :=
  { t with nodes := (taken, node) :: t.nodes.filter fun n => n.1 ≠ left ∧ n.1 ≠ taken }

theorem moveFile_of_find {replaced : FileId} (hsource : t.find source = .ok (.file id))
    (htarget : t.find target = .ok (.file replaced)) (hne : id ≠ replaced) : ∃ left taken,
      t.locate source = .ok left ∧ t.node? left = some (.file id) ∧
      t.locate target = .ok taken ∧ t.node? taken = some (.file replaced) ∧
      t.moveFile source target = .ok (t.withMoved left taken (.file id)) := by
  obtain ⟨_, left, hleft, hleftnode⟩ := find_eq_file.1 hsource
  obtain ⟨_, taken, htaken, htakennode⟩ := find_eq_file.1 htarget
  refine ⟨left, taken, hleft, hleftnode, htaken, htakennode, ?_⟩
  simp [moveFile, hsource, hleft, htaken, htakennode, hne.symm, bind, Except.bind, withMoved]

private theorem lookup_filter {p : Location → Prop} [DecidablePred p] (nodes : List (Location × Node))
    (place : Location) : (nodes.filter fun n => p n.1).lookup place =
      if p place then nodes.lookup place else none := by
  induction nodes with
  | nil => simp
  | cons n nodes ih =>
    obtain ⟨other, node⟩ := n
    by_cases heq : place = other
    · subst heq
      by_cases hp : p place <;> simp [hp, ih]
    · have hne := beq_eq_false_iff_ne.2 heq
      by_cases hp : p other <;> simp [List.lookup_cons, hp, ih, hne]

theorem node?_withMoved {left taken : Location} {node : Node} (hleft : left ≠ []) (htaken : taken ≠ [])
    (place : Location) : (t.withMoved left taken node).node? place =
      if place = taken then some node else if place = left then none else t.node? place := by
  unfold node? withMoved
  by_cases hnil : place = []
  · rw [if_pos hnil, if_neg (hnil ▸ htaken.symm), if_neg (hnil ▸ hleft.symm), if_pos hnil]
  · simp only [if_neg hnil]
    by_cases heq : place = taken
    · rw [if_pos heq, List.lookup_cons, heq, beq_self_eq_true]
    · have hothers := lookup_filter (p := fun other => other ≠ left ∧ other ≠ taken) t.nodes place
      simp only [if_neg heq, List.lookup_cons, beq_eq_false_iff_ne.2 heq]
      rw [hothers]
      by_cases hsource : place = left <;> simp [hsource, heq]

/-- A file that took the place of another one. -/
structure Moved (t : FileTree) (source target : String) (id : FileId) (u : FileTree) : Prop where
  wellFormed : u.WellFormed
  files : u.files = t.files
  faults : u.faults = t.faults
  find_eq : u.find target = .ok (.file id)
  locate_eq : ∀ {path place}, t.locate path = .ok place → u.locate path = .ok place
  vacant : ∀ {place}, t.locate source = .ok place → u.node? place = none

theorem WellFormed.moved {replaced : FileId} (h : t.WellFormed)
    (hsource : t.find source = .ok (.file id)) (htarget : t.find target = .ok (.file replaced))
    (hne : id ≠ replaced) : ∃ u, t.moveFile source target = .ok u ∧ Moved t source target id u := by
  obtain ⟨left, taken, hleft, hleftnode, htaken, htakennode, hmove⟩ :=
    moveFile_of_find hsource htarget hne
  have hnode : ∀ place, (t.withMoved left taken (.file id)).node? place =
      if place = taken then some (.file id) else if place = left then none else t.node? place :=
    node?_withMoved (ne_nil_of_node? hleftnode nofun) (ne_nil_of_node? htakennode nofun)
  have hapart : left ≠ taken := by
    rintro rfl
    exact hne (Node.file.inj (Option.some.inj (hleftnode.symm.trans htakennode)))
  have hfolders : ∀ place, t.node? place = some .folder →
      (t.withMoved left taken (.file id)).node? place = some .folder := by
    intro place hfolder
    rw [hnode, if_neg, if_neg, hfolder]
    · rintro rfl
      rw [hleftnode] at hfolder
      cases hfolder
    · rintro rfl
      rw [htakennode] at hfolder
      cases hfolder
  refine ⟨_, hmove, ⟨?_⟩, rfl, rfl, ?_, locate_of_folders hfolders, ?_⟩
  · intro place other hplace
    rw [hnode] at hplace
    split at hplace
    · cases hplace
      exact h.lt_size hleftnode
    · split at hplace
      · cases hplace
      · exact h.lt_size hplace
  · exact find_of_locate hfolders (find_eq_file.1 htarget).1 htaken (by rw [hnode, if_pos rfl])
  · intro place hplace
    cases hleft.symm.trans hplace
    rw [hnode, if_neg hapart, if_pos rfl]

/-- A new file can be made where the one was that was moved. -/
theorem Moved.exists_obtain (h : Moved t source target id u) {left : FileId}
    (hsource : t.find source = .ok (.file left)) : ∃ v, u.obtain source = .ok (u.files.size, v) := by
  obtain ⟨hwants, place, hlocate, _⟩ := find_eq_file.1 hsource
  exact ⟨_, obtain_of_vacant hwants (h.locate_eq hlocate) (h.vacant hlocate)⟩

end

end Marc21.FileTree
