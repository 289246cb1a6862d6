import Marc21.File.Writer
import Marc21.Proofs.Stream.Sink
import Marc21.Proofs.File.Tree

/-!
An open file as a sink. As long as its next bytes go to the end of the file, the file and what is held back
make up everything that was taken in (`write_spec`, `drain_spec`), however long the pieces are and wherever a
write fails. If no write fails, that is everything that was written (`reliable`).
-/

namespace Marc21.FileSink

/-- What was taken in, whether it was let through or not. -/
def taken (s : FileSink) : Bytes := (s.tree.bytes s.output.file).toList ++ s.output.buffer.toList

/-- The next bytes go to the end of a file, and nothing else in the tree has changed. -/
structure AtEnd (t : FileTree) (id : FileId) (s : FileSink) : Prop where
  file : s.output.file = id
  lt_size : id < t.files.size
  same : t.SameBut id s.tree
  cursor : ∀ offset, s.output.cursor = some offset → offset = (s.tree.bytes id).size

/-- No write to the file will fail either. -/
structure Sound (t : FileTree) (id : FileId) (s : FileSink) : Prop extends AtEnd t id s where
  faults : s.tree.faults = []

/-! ## What a call does -/

section

variable {s v : FileSink} {bs : Bytes}

theorem drain_of_empty (h : s.output.buffer = #[]) : s.drain = (.ok (), s) := by
  rw [drain, if_pos h]

/-- No byte is left of those that were let through, unless the write fails. -/
theorem left_of_deliver (h : (s.deliver bs).result = .ok ()) : (s.deliver bs).left = [] := by
  change bs.drop (s.tree.nextWrite bs.length).1 = []
  rw [(s.tree.nextWrite_spec bs.length).2 h, List.drop_length]

/-- Nothing is held back once all of it was let through. -/
theorem buffer_of_drain (h : s.drain = (.ok (), v)) : v.output.buffer = #[] := by
  rw [drain] at h
  split at h
  · next hempty =>
    cases h
    exact hempty
  · obtain ⟨hresult, rfl⟩ := Prod.mk.inj h
    simp only [left_of_deliver hresult]

/-- A write holds the bytes back, fails to make room for them, or lets them through when nothing is held
back. -/
theorem write_cases (s : FileSink) (bs : Bytes) :
    (∃ v, (v = s ∨ s.drain = (.ok (), v)) ∧ s.write bs = (.ok (), v.hold bs)) ∨
      (∃ failure v, s.drain = (.error failure, v) ∧ s.write bs = (.error failure, v)) ∨
      ∃ v, s.drain = (.ok (), v) ∧ s.write bs = ((v.deliver bs).result, (v.deliver bs).sink) := by
  rw [write]
  dsimp only
  split
  · exact .inl ⟨s, .inl rfl, rfl⟩
  · next hfull =>
    by_cases hroom : bufferCapacity - s.output.buffer.size < bs.length
    · rw [if_pos hroom]
      rcases hdrain : s.drain with ⟨result, v⟩
      cases result with
      | error failure => exact .inr (.inl ⟨failure, v, rfl, rfl⟩)
      | ok =>
        dsimp only
        split
        · exact .inr (.inr ⟨v, rfl, rfl⟩)
        · exact .inl ⟨v, .inr rfl, rfl⟩
    · rw [if_neg hroom]
      dsimp only
      split
      · have : 0 < bufferCapacity := by decide
        have hempty : s.output.buffer = #[] := Array.size_eq_zero_iff.1 (by omega)
        exact .inr (.inr ⟨s, drain_of_empty hempty, rfl⟩)
      · exact .inl ⟨s, .inl rfl, rfl⟩

end

/-! ## At the end of a file -/

section

variable {t : FileTree} {id : FileId} {s : FileSink}

theorem AtEnd.taken_eq (h : AtEnd t id s) :
    s.taken = (s.tree.bytes id).toList ++ s.output.buffer.toList := by
  rw [taken, h.file]

/-- Bytes that are put into the file are appended, with a cursor as well as without. -/
theorem place_tree (h : AtEnd t id s) (bs : Bytes) : (s.place bs).tree = s.tree.append id bs := by
  rw [place]
  split
  · rw [h.file]
  · next offset hcursor => rw [h.file, h.cursor offset hcursor, FileTree.writeAt_size]

theorem place_spec (h : AtEnd t id s) (bs : Bytes) : AtEnd t id (s.place bs) ∧
    (s.place bs).tree.bytes id = s.tree.bytes id ++ bs ∧
    (s.place bs).output.buffer = s.output.buffer := by
  have hbytes : (s.place bs).tree.bytes id = s.tree.bytes id ++ bs := by
    rw [place_tree h, FileTree.append, FileTree.bytes_setBytes (h.same.size ▸ h.lt_size)]
  have houtput : (s.place bs).output.file = s.output.file ∧
      (s.place bs).output.buffer = s.output.buffer ∧
      (s.place bs).output.cursor = s.output.cursor.map (· + bs.length) := by
    rw [place]
    split
    · next hcursor => simp [hcursor]
    · next offset hcursor => simp [hcursor]
  obtain ⟨hfile, hbuffer, hcursor⟩ := houtput
  refine ⟨⟨hfile.trans h.file, h.lt_size, ?_, ?_⟩, hbytes, hbuffer⟩
  · rw [place_tree h]
    exact h.same.trans FileTree.sameBut_setBytes
  · intro offset hoffset
    rw [hcursor, Option.map_eq_some_iff] at hoffset
    obtain ⟨before, hbefore, rfl⟩ := hoffset
    rw [h.cursor before hbefore, hbytes, ← Array.length_toList, ← Array.length_toList,
      Array.toList_appendList, List.length_append]

/-- The bytes that get to the file are a front of those that were let through. -/
theorem deliver_spec (h : AtEnd t id s) (bs : Bytes) :
    let d := s.deliver bs
    AtEnd t id d.sink ∧ d.sink.output.buffer = s.output.buffer ∧ (d.result = .ok () → d.left = []) ∧
      ∃ front, bs = front ++ d.left ∧ d.sink.tree.bytes id = s.tree.bytes id ++ front := by
  have hpast : AtEnd t id { s with tree := s.tree.pastWrite } :=
    ⟨h.file, h.lt_size, h.same.trans FileTree.sameBut_pastWrite, h.cursor⟩
  obtain ⟨hend, hbytes, hbuffer⟩ := place_spec hpast (bs.take (s.tree.nextWrite bs.length).1)
  exact ⟨hend, hbuffer, left_of_deliver, _, (List.take_append_drop _ _).symm, hbytes⟩

theorem hold_spec (h : AtEnd t id s) (bs : Bytes) :
    AtEnd t id (s.hold bs) ∧ (s.hold bs).taken = s.taken ++ bs := by
  refine ⟨⟨h.file, h.lt_size, h.same, h.cursor⟩, ?_⟩
  simp [taken, hold]

/-- Letting through what is held back loses nothing, also where it fails. -/
theorem drain_spec (h : AtEnd t id s) : AtEnd t id s.drain.2 ∧ s.drain.2.taken = s.taken := by
  rw [drain]
  split
  · exact ⟨h, rfl⟩
  · obtain ⟨hend, _, _, front, hfront, hbytes⟩ := deliver_spec h s.output.buffer.toList
    rw [h.taken_eq]
    dsimp only
    generalize s.deliver s.output.buffer.toList = d at hend hfront hbytes
    refine ⟨⟨hend.file, hend.lt_size, hend.same, hend.cursor⟩, ?_⟩
    simp only [taken, hend.file, hbytes, hfront, Array.toList_appendList, List.append_assoc]

/-- A disk with room for two bytes, and three that are held back. -/
example :
    let full : StreamFailure := .system "No space left on device (os error 28)"
    let s : FileSink := ⟨⟨[], #[#[]], [some ⟨2, full⟩]⟩, ⟨0, none, #[1, 2, 3]⟩⟩
    s.drain.1 = .error full ∧ s.drain.2.tree.bytes 0 = #[1, 2] ∧ s.drain.2.output.buffer = #[3] := by
  decide

/-- What a write takes in comes behind what was taken in before. It is all of the bytes, or a front of them
where the write fails. -/
theorem write_spec (h : AtEnd t id s) (bs : Bytes) : AtEnd t id (s.write bs).2 ∧
    ∃ front left, bs = front ++ left ∧ (s.write bs).2.taken = s.taken ++ front ∧
      ((s.write bs).1 = .ok () → left = []) := by
  obtain ⟨hdrained, htaken⟩ := drain_spec h
  obtain ⟨v, hv, hwrite⟩ | ⟨failure, v, hdrain, hwrite⟩ | ⟨v, hdrain, hwrite⟩ := write_cases s bs
  · have hend : AtEnd t id v ∧ v.taken = s.taken := by
      obtain rfl | hdrain := hv
      · exact ⟨h, rfl⟩
      · rw [hdrain] at hdrained htaken
        exact ⟨hdrained, htaken⟩
    obtain ⟨hheld, hheldtaken⟩ := hold_spec hend.1 bs
    rw [hwrite]
    exact ⟨hheld, bs, [], (List.append_nil bs).symm, hend.2 ▸ hheldtaken, fun _ => rfl⟩
  · rw [hdrain] at hdrained htaken
    rw [hwrite]
    exact ⟨hdrained, [], bs, rfl, by rw [htaken, List.append_nil], nofun⟩
  · have hempty := buffer_of_drain hdrain
    rw [hdrain] at hdrained htaken
    obtain ⟨hend, hbuffer, hleft, front, hfront, hbytes⟩ := deliver_spec hdrained bs
    rw [hwrite]
    refine ⟨hend, front, _, hfront, ?_, hleft⟩
    rw [← htaken, hend.taken_eq, hdrained.taken_eq, hbytes, hbuffer, hempty]
    simp

end

/-! ## Where no write fails -/

section

variable {s v : FileSink} {bs : Bytes}

theorem deliver_of_nil (h : s.tree.faults = []) (bs : Bytes) :
    (s.deliver bs).result = .ok () ∧ (s.deliver bs).sink.tree.faults = [] := by
  simp only [deliver, FileTree.nextWrite_of_nil h, FileTree.pastWrite_of_nil h, place, true_and]
  split <;> exact h

theorem drain_of_nil (h : s.tree.faults = []) : s.drain.1 = .ok () ∧ s.drain.2.tree.faults = [] := by
  rw [drain]
  split
  · exact ⟨rfl, h⟩
  · exact deliver_of_nil h _

theorem write_of_nil (h : s.tree.faults = []) (bs : Bytes) :
    (s.write bs).1 = .ok () ∧ (s.write bs).2.tree.faults = [] := by
  obtain ⟨hok, hfaults⟩ := drain_of_nil h
  obtain ⟨v, rfl | hdrain, hwrite⟩ | ⟨failure, v, hdrain, hwrite⟩ | ⟨v, hdrain, hwrite⟩ := write_cases s bs
  · rw [hwrite]
    exact ⟨rfl, h⟩
  · rw [hdrain] at hfaults
    rw [hwrite]
    exact ⟨rfl, hfaults⟩
  · rw [hdrain] at hok
    cases hok
  · rw [hdrain] at hfaults
    rw [hwrite]
    exact deliver_of_nil hfaults bs

end

section

variable {t : FileTree} {id : FileId} {s : FileSink}

theorem Sound.drain (h : Sound t id s) : s.drain.1 = .ok () ∧ Sound t id s.drain.2 ∧
    s.drain.2.taken = s.taken ∧ s.drain.2.output.buffer = #[] := by
  obtain ⟨hok, hfaults⟩ := drain_of_nil h.faults
  obtain ⟨hend, htaken⟩ := drain_spec h.toAtEnd
  exact ⟨hok, ⟨hend, hfaults⟩, htaken, buffer_of_drain (Prod.ext hok rfl)⟩

theorem Sound.write (h : Sound t id s) (bs : Bytes) : (s.write bs).1 = .ok () ∧ Sound t id (s.write bs).2 ∧
    (s.write bs).2.taken = s.taken ++ bs := by
  obtain ⟨hok, hfaults⟩ := write_of_nil h.faults bs
  obtain ⟨hend, front, left, rfl, htaken, hleft⟩ := write_spec h.toAtEnd bs
  refine ⟨hok, ⟨hend, hfaults⟩, ?_⟩
  rw [htaken, hleft hok, List.append_nil]

end

/-- A file loses nothing that is written at its end. -/
def reliable (t : FileTree) (id : FileId) : Reliable FileSink where
  sound := Sound t id
  taken := taken
  write_spec bs h := ⟨_, Prod.ext (h.write bs).1 rfl, (h.write bs).2⟩
  flush_spec h := ⟨_, Prod.ext h.drain.1 rfl, h.drain.2.1, h.drain.2.2.1⟩

/-- Once nothing is held back, the file is what was written. -/
theorem tree_drain {t : FileTree} {id : FileId} {s : FileSink} (h : Sound t id s) (ht : t.faults = []) :
    s.drain.2.tree = t.setBytes id s.taken.toArray := by
  obtain ⟨_, hsound, htaken, hbuffer⟩ := h.drain
  rw [hsound.same.eq_setBytes hsound.lt_size (hsound.faults.trans ht.symm), ← htaken, hsound.taken_eq,
    hbuffer]
  simp

/-! ## Other files -/

/-- A file is open, and nothing else in the tree has changed. -/
def Confined (t : FileTree) (file : FileId) (s : FileSink) : Prop :=
  s.output.file = file ∧ t.SameBut file s.tree

section

variable {t : FileTree} {file : FileId} {s : FileSink}

theorem Confined.deliver (h : Confined t file s) (bs : Bytes) : Confined t file (s.deliver bs).sink := by
  obtain ⟨rfl, hsame⟩ := h
  have hpast := hsame.trans (FileTree.sameBut_pastWrite (t := s.tree))
  simp only [FileSink.deliver, place]
  split
  all_goals exact ⟨rfl, hpast.trans FileTree.sameBut_setBytes⟩

theorem Confined.drain (h : Confined t file s) : Confined t file s.drain.2 := by
  rw [FileSink.drain]
  split
  · exact h
  · exact h.deliver _

/-- Wherever the bytes go that are written, they go to the file that is open, also where a write fails. -/
theorem lasting_confined (t : FileTree) (file : FileId) : Lasting (Confined t file) where
  write {s} bs h := by
    have hdrained := h.drain
    change Confined t file (s.write bs).2
    obtain ⟨v, rfl | hdrain, hwrite⟩ | ⟨failure, v, hdrain, hwrite⟩ | ⟨v, hdrain, hwrite⟩ :=
      write_cases s bs
    · rw [hwrite]
      exact h
    all_goals
      rw [hdrain] at hdrained
      rw [hwrite]
    · exact hdrained
    · exact hdrained
    · exact hdrained.deliver bs
  flush h := h.drain

end

end Marc21.FileSink

namespace Marc21

/-! ## Opening -/

/-- A file as a new writer gets it. -/
def FileSink.opened (t : FileTree) (id : FileId) (mode : WriteMode) : FileSink :=
  ⟨if mode = .overwrite then t.setBytes id #[] else t, ⟨id, if mode = .append then none else some 0, #[]⟩⟩

theorem RecordWriter.sink_ofFormat {σ : Type} [ByteSink σ] (f : RecordFormat) (sink : σ)
    (indent : Option Nat) : (RecordWriter.ofFormat f sink indent).sink = sink := by
  cases f <;> cases indent <;> rfl

theorem FileWriter.sink_attached (w : FileWriter) (t : FileTree) :
    (w.attached t).sink = ⟨t, w.records.sink⟩ := by
  rw [attached]
  cases w.records <;> rfl

theorem FileWriter.attached_detached (path : String) (w : RecordWriter FileSink) :
    (detached path w).1.attached (detached path w).2 = w := by
  cases w <;> rfl

theorem FileTree.openWriter_eq_ok {t u : FileTree} {path : String} {format : Option RecordFormat}
    {mode : WriteMode} {w : FileWriter} (h : t.openWriter path format mode = .ok (w, u)) :
    ∃ f id v, (∀ g, format = some g → f = g) ∧ t.obtain path = .ok (id, v) ∧
      FileWriter.detached path (RecordWriter.ofFormat f (FileSink.opened v id mode) (some fileIndent)) =
        (w, u) := by
  obtain ⟨f, hf, h⟩ : ∃ f, (∀ g, format = some g → f = g) ∧
      t.openWriter path (some f) mode = .ok (w, u) := by
    cases format with
    | some f => exact ⟨f, fun g hg => Option.some.inj hg, h⟩
    | none =>
      rw [openWriter] at h
      cases hname : formatByName path with
      | error e =>
        rw [hname] at h
        cases h
      | ok f =>
        rw [hname] at h
        exact ⟨f, nofun, h⟩
  unfold openWriter at h
  by_cases hxml : f = .xml ∧ mode = .append
  · simp only [hxml, if_true] at h
    cases h
  · simp only [hxml, if_false, bind, Except.bind] at h
    cases hobtain : t.obtain path with
    | error failure =>
      rw [hobtain] at h
      cases h
    | ok obtained =>
      rw [hobtain] at h
      exact ⟨f, _, _, hf, rfl, Except.ok.inj h⟩

/-- The file that a writer has open, and what opening it did to the tree. -/
theorem FileTree.obtain_of_openWriter {t u : FileTree} {path : String} {format : Option RecordFormat}
    {mode : WriteMode} {w : FileWriter} (h : t.openWriter path format mode = .ok (w, u)) :
    ∃ v, t.obtain path = .ok (w.records.sink.file, v) ∧ v.SameBut w.records.sink.file u ∧
      u.faults = v.faults := by
  obtain ⟨f, id, v, _, hobtain, hdetached⟩ := openWriter_eq_ok h
  obtain ⟨hw, hu⟩ := Prod.mk.inj hdetached
  have hfile : w.records.sink.file = id := by
    rw [← hw]
    cases f <;> rfl
  have htree : u = (FileSink.opened v id mode).tree := by rw [← hu, RecordWriter.sink_ofFormat]
  rw [hfile, htree]
  refine ⟨v, hobtain, ?_⟩
  dsimp only [FileSink.opened]
  split
  · exact ⟨sameBut_setBytes, rfl⟩
  · exact ⟨.refl id v, rfl⟩

theorem FileTree.openWriter_of_obtain {t u : FileTree} {path : String} {id : FileId} {f : RecordFormat}
    {mode : WriteMode} (hf : f = .binary ∨ mode = .overwrite) (h : t.obtain path = .ok (id, u)) :
    t.openWriter path (some f) mode = .ok (FileWriter.detached path
      (RecordWriter.ofFormat f (FileSink.opened u id mode) (some fileIndent))) := by
  have hfit : ¬(f = .xml ∧ mode = .append) := by
    rintro ⟨rfl, rfl⟩
    rcases hf with h | h <;> cases h
  unfold openWriter
  simp only [hfit, if_false, h, bind, Except.bind]
  rfl

end Marc21
