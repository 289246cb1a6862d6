import Mathlib.Logic.Function.Basic
import Marc21.Proofs.Iso2709.Acceptance
import Marc21.Proofs.Iso2709.Position
import Marc21.Proofs.File.Sink

/-!
Writers that share a file. Between locked writes no writer holds anything back (`Idle`), and each one goes to
the end of the file before it writes. So a run of calls appends what was accepted, whoever makes them, and a
call that is refused leaves no trace (`lockedWrites_appended`).
-/

namespace Marc21

/-- What a record adds to a file. A record that is refused adds nothing. -/
def Iso2709.Writer.added (r : Record) : Bytes :=
  match encoded r with
  | .error _ => []
  | .ok chunks => chunks.flatten

namespace FileWriter

/-! ## One call -/

/-- A binary writer on a file that can still write and holds nothing back. Where it wrote last does not
count. -/
def Idle (id : FileId) (w : FileWriter) : Prop :=
  ∃ cursor written, w.records = .binary ⟨⟨id, cursor, #[]⟩, written, false⟩

/-- A binary writer that was opened on a file, in either mode, and not used since. -/
def OpenedOn (id : FileId) (w : FileWriter) : Prop :=
  ∃ (t : FileTree) (path : String) (format : Option RecordFormat) (mode : WriteMode) (u : FileTree),
    t.openWriter path format mode = .ok (w, u) ∧ w.format = .binary ∧ w.records.sink.file = id

section

variable {id : FileId} {w : FileWriter} {t : FileTree} {r : Record}

theorem OpenedOn.idle (h : OpenedOn id w) : Idle id w := by
  obtain ⟨t, path, format, mode, u, hopen, hformat, rfl⟩ := h
  obtain ⟨f, id, v, _, _, hw⟩ := FileTree.openWriter_eq_ok hopen
  obtain ⟨rfl, _⟩ := Prod.mk.inj hw
  cases f with
  | binary => exact ⟨_, _, rfl⟩
  | xml => cases hformat

/-- Going to the end does not fail where nothing is held back. -/
private theorem seekEnd_idle (t : FileTree) (id : FileId) (cursor : Option Nat) :
    FileSink.seekEnd ⟨t, ⟨id, cursor, #[]⟩⟩ =
      (.ok (), ⟨t, ⟨id, cursor.map fun _ => (t.bytes id).size, #[]⟩⟩) := rfl

/-- A record that is refused leaves the file as it is, and the writer fit for the next call. -/
theorem Idle.lockedWrite_refused (h : Idle id w) {e : MarcError} (hr : Iso2709.Writer.encoded r = .error e) :
    (w.lockedWrite t r).result = .error e ∧ (w.lockedWrite t r).state.2 = t ∧
      Idle id (w.lockedWrite t r).state.1 := by
  obtain ⟨cursor, written, hrecords⟩ := h
  have hwrite : ∀ sink : FileSink, (Iso2709.Writer.mk sink written false).write r =
      ⟨.error e, ⟨sink, written, false⟩, r.validityNotices⟩ := by
    intro sink
    simp only [Iso2709.Writer.write, hr]
    rfl
  simp only [lockedWrite, attached, hrecords, RecordWriter.withSink, RecordWriter.sink, seekEnd_idle,
    RecordWriter.write, hwrite, Outcome.mapState, true_and]
  exact ⟨rfl, _, _, rfl⟩

/-- A record that is accepted is appended to the file as it is then. -/
theorem Idle.lockedWrite_accepted (h : Idle id w) (hid : id < t.files.size) (ht : t.faults = [])
    {chunks : List Bytes} (hr : Iso2709.Writer.encoded r = .ok chunks) :
    (w.lockedWrite t r).result = .ok () ∧ (w.lockedWrite t r).state.2 = t.append id chunks.flatten ∧
      Idle id (w.lockedWrite t r).state.1 := by
  obtain ⟨cursor, written, hrecords⟩ := h
  let sink : FileSink := ⟨t, ⟨id, cursor.map fun _ => (t.bytes id).size, #[]⟩⟩
  have hseek : FileSink.seekEnd ⟨t, ⟨id, cursor, #[]⟩⟩ = (.ok (), sink) := seekEnd_idle t id cursor
  have hend : FileSink.Sound t id sink := by
    refine ⟨⟨rfl, hid, .refl id t, fun offset hoffset => ?_⟩, ht⟩
    obtain ⟨_, _, hsize⟩ := Option.map_eq_some_iff.1 hoffset
    exact hsize.symm
  obtain ⟨after, notices, hwrite, hafter, htaken⟩ := Iso2709.write_spec (FileSink.reliable t id)
    (w := ⟨sink, written, false⟩) rfl hend hr
  change FileSink.Sound t id after at hafter
  obtain ⟨hok, hdrained, _, hbuffer⟩ := hafter.drain
  have hflush : ByteSink.flush after = (.ok (), after.drain.2) := Prod.ext hok rfl
  have htree := FileSink.tree_drain hafter ht
  have hbytes : after.taken.toArray = t.bytes id ++ chunks.flatten := by
    rw [show after.taken = sink.taken ++ chunks.flatten from htaken]
    rw [← Array.toList_inj]
    simp [FileSink.taken, sink]
  simp only [lockedWrite, attached, hrecords, RecordWriter.withSink, RecordWriter.sink, hseek,
    RecordWriter.write, hwrite, Outcome.mapState, RecordWriter.flush, Iso2709.Writer.flush, hflush,
    true_and]
  refine ⟨?_, after.drain.2.output.cursor, written + 1, ?_⟩
  · rw [FileTree.append, ← hbytes, ← htree]
    rfl
  · simp only [detached, RecordWriter.withSink, RecordWriter.sink]
    rw [← hdrained.file, ← hbuffer]

theorem Idle.lockedWrite (h : Idle id w) (hid : id < t.files.size) (ht : t.faults = []) (r : Record) :
    (w.lockedWrite t r).result = (Iso2709.Writer.encoded r).map (fun _ => ()) ∧
      (w.lockedWrite t r).state.2 = t.append id (Iso2709.Writer.added r) ∧
      Idle id (w.lockedWrite t r).state.1 := by
  unfold Iso2709.Writer.added
  cases hr : Iso2709.Writer.encoded r with
  | error e =>
    obtain ⟨hresult, htree, hidle⟩ := h.lockedWrite_refused (t := t) hr
    exact ⟨hresult, htree.trans FileTree.append_nil.symm, hidle⟩
  | ok chunks => exact h.lockedWrite_accepted hid ht hr

end

end FileWriter

/-! ## Calls of many writers -/

/-- Writers that have files of one tree open. -/
structure Sharing (ι : Type) where
  tree : FileTree
  writers : ι → FileWriter

namespace Sharing

variable {ι : Type} [DecidableEq ι]

/-- A locked write by one of the writers. -/
def lockedWrite (s : Sharing ι) (i : ι) (r : Record) : Except MarcError Unit × Sharing ι :=
  let o := (s.writers i).lockedWrite s.tree r
  (o.result, ⟨o.state.2, Function.update s.writers i o.state.1⟩)

/-- Locked writes one after the other, and the result of each. -/
def lockedWrites (s : Sharing ι) : List (ι × Record) → List (Except MarcError Unit) × Sharing ι
  | [] => ([], s)
  | (i, r) :: calls =>
    let (result, s) := s.lockedWrite i r
    let (results, s) := lockedWrites s calls
    (result :: results, s)

/-- All writers are on one file of the tree, none of them holds anything back, and no write will fail. -/
structure Idle (id : FileId) (s : Sharing ι) : Prop where
  lt_size : id < s.tree.files.size
  faults : s.tree.faults = []
  writers : ∀ i, (s.writers i).Idle id

section

variable {id : FileId} {s : Sharing ι}

/-- One call appends what it adds, and all writers are idle again. -/
theorem Idle.lockedWrite (h : Idle id s) (i : ι) (r : Record) :
    (s.lockedWrite i r).1 = (Iso2709.Writer.encoded r).map (fun _ => ()) ∧
      (s.lockedWrite i r).2.tree = s.tree.append id (Iso2709.Writer.added r) ∧
      Idle id (s.lockedWrite i r).2 := by
  obtain ⟨hresult, htree, hidle⟩ := (h.writers i).lockedWrite h.lt_size h.faults r
  refine ⟨hresult, htree, ?_, ?_, fun j => ?_⟩
  · rw [show (s.lockedWrite i r).2.tree = _ from htree, FileTree.append, FileTree.setBytes,
      Array.size_setIfInBounds]
    exact h.lt_size
  · rw [show (s.lockedWrite i r).2.tree = _ from htree]
    exact h.faults
  · by_cases hij : j = i
    · subst hij
      simpa only [Sharing.lockedWrite, Function.update_self] using hidle
    · simpa only [Sharing.lockedWrite, Function.update_of_ne hij] using h.writers j

/-- A run of calls appends what all of them add. -/
theorem Idle.lockedWrites (h : Idle id s) (calls : List (ι × Record)) :
    (s.lockedWrites calls).1 = calls.map (fun c => (Iso2709.Writer.encoded c.2).map fun _ => ()) ∧
      (s.lockedWrites calls).2.tree =
        s.tree.append id (calls.flatMap fun c => Iso2709.Writer.added c.2) ∧
      Idle id (s.lockedWrites calls).2 := by
  induction calls generalizing s with
  | nil => exact ⟨rfl, FileTree.append_nil.symm, h⟩
  | cons c calls ih =>
    obtain ⟨i, r⟩ := c
    obtain ⟨hresult, htree, hidle⟩ := h.lockedWrite i r
    obtain ⟨hresults, hlater, hlast⟩ := ih hidle
    refine ⟨?_, ?_, hlast⟩
    · rw [List.map_cons, ← hresults, ← hresult]
      rfl
    · rw [List.flatMap_cons, ← FileTree.append_append h.lt_size, ← htree, ← hlater]
      rfl

end

/-! ## Main result -/

/-- The records whose calls succeeded. -/
def accepted (calls : List (ι × Record)) (results : List (Except MarcError Unit)) : List Record :=
  (calls.zip results).filterMap fun (c, result) => if result.isOk then some c.2 else none

omit [DecidableEq ι] in
/-- What is added comes from accepted records alone. -/
private theorem encodeAll_accepted (calls : List (ι × Record)) :
    Iso2709.Reader.encodeAll
        (accepted calls (calls.map fun c => (Iso2709.Writer.encoded c.2).map fun _ => ())) =
      calls.flatMap fun c => Iso2709.Writer.added c.2 := by
  induction calls with
  | nil => rfl
  | cons c calls ih =>
    rw [accepted] at ih ⊢
    rw [List.map_cons, List.zip_cons_cons, List.filterMap_cons, List.flatMap_cons, ← ih,
      Iso2709.Writer.added]
    cases hr : Iso2709.Writer.encoded c.2 with
    | error e => rfl
    | ok chunks =>
      rw [(Iso2709.split_eq_ok (Iso2709.Writer.encoded_eq_ok hr).2).2]
      rfl

/-- **Locked writes never overwrite each other.** When writers that were opened on a file are used in no
other way and the system takes in what they write, the file is what it was and behind that the records whose
calls succeeded, in the order of the calls. A call fails only if its record is refused, and then everything goes
on as if there had been no such call. -/
theorem lockedWrites_appended {s : Sharing ι} {path : String} {id : FileId} (htree : s.tree.WellFormed)
    (hfaults : s.tree.faults = []) (hfind : s.tree.find path = .ok (.file id))
    (hopened : ∀ i, (s.writers i).OpenedOn id) (calls : List (ι × Record)) :
    let results := (s.lockedWrites calls).1
    let last := (s.lockedWrites calls).2
    let written := Iso2709.Reader.encodeAll (accepted calls results)
    last.tree.read path = .ok (s.tree.bytes id ++ written) ∧
      last.tree = s.tree.append id written ∧
      results = calls.map (fun c => (Iso2709.Writer.encoded c.2).map fun _ => ()) ∧
      ∀ before i r after e, calls = before ++ (i, r) :: after →
        let there := (s.lockedWrites before).2
        (there.lockedWrite i r).1 = .error e →
          Iso2709.Writer.encoded r = .error e ∧ (there.lockedWrite i r).2.tree = there.tree ∧
            (s.lockedWrites (before ++ after)).2.tree = last.tree ∧
            ∃ later, (s.lockedWrites (before ++ after)).1 = (s.lockedWrites before).1 ++ later ∧
              results = (s.lockedWrites before).1 ++ .error e :: later := by
  obtain ⟨_, place, _, hnode⟩ := FileTree.find_eq_file.1 hfind
  have hidle : Idle id s := ⟨htree.lt_size hnode, hfaults, fun i => (hopened i).idle⟩
  obtain ⟨hresults, hlast, _⟩ := hidle.lockedWrites calls
  have hwritten : (s.lockedWrites calls).2.tree = s.tree.append id
      (Iso2709.Reader.encodeAll (accepted calls (s.lockedWrites calls).1)) := by
    rw [hresults, encodeAll_accepted, hlast]
  have hsame : FileTree.SameBut id s.tree (s.lockedWrites calls).2.tree :=
    hwritten ▸ FileTree.sameBut_setBytes
  refine ⟨?_, hwritten, hresults, ?_⟩
  · rw [FileTree.read_of_find (hsame.find_eq.trans hfind), hwritten, FileTree.bytes_append hidle.lt_size]
  · rintro before i r after e rfl there hfailed
    obtain ⟨hearlier, _, hthere⟩ := hidle.lockedWrites before
    obtain ⟨hresult, htree, _⟩ := hthere.lockedWrite i r
    obtain ⟨hothers, hothertree, _⟩ := hidle.lockedWrites (before ++ after)
    have hrefused : Iso2709.Writer.encoded r = .error e := by
      cases hr : Iso2709.Writer.encoded r with
      | error other =>
        rw [hr] at hresult
        cases hresult.symm.trans hfailed
        rfl
      | ok chunks =>
        rw [hr] at hresult
        cases hresult.symm.trans hfailed
    have hnothing : Iso2709.Writer.added r = [] := by rw [Iso2709.Writer.added, hrefused]
    refine ⟨hrefused, ?_, ?_, _, by rw [hothers, List.map_append, hearlier], ?_⟩
    · rw [htree, hnothing, FileTree.append_nil]
    · rw [hothertree, hlast]
      simp only [List.flatMap_append, List.flatMap_cons, hnothing, List.nil_append]
    · rw [hresults, hearlier, List.map_append, List.map_cons, hrefused]
      rfl

/-- A file that one writer empties and another one appends to, each of them twice. The call in the middle
is refused for want of a control number. -/
theorem lockedWrites_appended_interleaved : ∃ first u second v,
    FileTree.empty.openWriter "a.mrc" (some .binary) .overwrite = .ok (first, u) ∧
      u.openWriter "./a.mrc" (some .binary) .append = .ok (second, v) ∧
      let s : Sharing Bool := ⟨v, fun late => if late then second else first⟩
      let unnumbered := Record.ofParts (Leader.fresh .languageMaterial .monographOrItem) []
      let calls := [(true, Iso2709.titled "1" "10\x1FaA"), (false, Iso2709.titled "2" "  \x1FaB"),
        (false, unnumbered), (true, Iso2709.titled "1" "  \x1FaC"), (false, Iso2709.titled "3" "  \x1FaD")]
      (s.lockedWrites calls).1 = [.ok (), .ok (),
        .error (.invalidRecord (.flawed .noControlNumber "")), .ok (), .ok ()] ∧
      (s.lockedWrites calls).2.tree.read "a.mrc" =
        .ok (Iso2709.Reader.encodeAll [Iso2709.titled "1" "10\x1FaA", Iso2709.titled "2" "  \x1FaB",
          Iso2709.titled "1" "  \x1FaC", Iso2709.titled "3" "  \x1FaD"]).toArray := by
  let first : FileWriter := ⟨"a.mrc", .binary ⟨⟨0, some 0, #[]⟩, 0, false⟩⟩
  let second : FileWriter := ⟨"./a.mrc", .binary ⟨⟨0, none, #[]⟩, 0, false⟩⟩
  let t : FileTree := ⟨[(["a.mrc"], .file 0)], #[#[]], []⟩
  have hfirst : FileTree.empty.openWriter "a.mrc" (some .binary) .overwrite = .ok (first, t) := by
    rw [FileTree.openWriter_of_obtain (.inl rfl) (show FileTree.empty.obtain "a.mrc" = .ok (0, t) by decide)]
    rfl
  have hsecond : t.openWriter "./a.mrc" (some .binary) .append = .ok (second, t) := by
    rw [FileTree.openWriter_of_obtain (.inl rfl) (show t.obtain "./a.mrc" = .ok (0, t) by decide)]
    rfl
  refine ⟨first, t, second, t, hfirst, hsecond, ?_⟩
  intro s unnumbered calls
  have htree : s.tree.WellFormed :=
    FileTree.wellFormed_empty.withFile (show FileTree.empty.node? ["a.mrc"] = none by decide)
  have hopened : ∀ late, (s.writers late).OpenedOn 0 := by
    intro late
    cases late
    · exact ⟨_, _, _, _, _, hfirst, rfl, rfl⟩
    · exact ⟨_, _, _, _, _, hsecond, rfl, rfl⟩
  obtain ⟨hread, _, hresults, _⟩ :=
    lockedWrites_appended htree rfl (show s.tree.find "a.mrc" = .ok (.file 0) by decide) hopened calls
  have hall : (s.lockedWrites calls).1 = [.ok (), .ok (),
      .error (.invalidRecord (.flawed .noControlNumber "")), .ok (), .ok ()] := by
    rw [hresults]
    decide
  have hold : s.tree.bytes 0 = #[] := rfl
  refine ⟨hall, ?_⟩
  rw [hread, hall, hold]
  congr 1
  rw [← Array.toList_inj]
  simp [accepted, calls, Except.isOk, Except.toBool]

end Sharing

end Marc21
