import Mathlib.Data.String.Basic
import Marc21.File.OffsetIndex
import Marc21.Proofs.File.Duplicates
import Marc21.Proofs.Iso2709.Position

/-!
The index of offsets. Each record is put down with the offset that the reader told before it, and from there any
reader of the stream is given it again (`Stands`). Putting down one record after the other leaves the last one
with each control number (`mem_ofLocated`), so each entry of the index leads to that one, whatever became of the
reader in between (`offsets_spec`).
-/

namespace Marc21

open Iso2709.Reader (OnStream Settled encodeAll partRead)

/-! ## Putting down offsets -/

namespace OffsetIndex

/-- The numbers are in order, so each has one offset. -/
def Sorted (index : OffsetIndex) : Prop := index.Pairwise fun a b => a.1 < b.1

variable {index : OffsetIndex} {number : String} {offset : Nat}

theorem mem_put (h : index.Sorted) {entry : String × Nat} : entry ∈ put number offset index ↔
    entry = (number, offset) ∨ entry.1 ≠ number ∧ entry ∈ index := by
  induction index with
  | nil => simp [put]
  | cons first rest ih =>
    obtain ⟨hfirst, hrest⟩ := List.pairwise_cons.1 h
    have hlater {e : String × Nat} (he : e ∈ rest) : e.1 ≠ first.1 := (ne_of_lt (hfirst e he)).symm
    unfold put
    split
    · next heq =>
      rw [List.mem_cons, List.mem_cons]
      constructor
      · rintro (rfl | hmem)
        · exact .inl rfl
        · exact .inr ⟨heq ▸ hlater hmem, .inr hmem⟩
      · rintro (rfl | ⟨hne, rfl | hmem⟩)
        · exact .inl rfl
        · exact absurd heq.symm hne
        · exact .inr hmem
    · next hne =>
      split
      · next hlt =>
        -- All numbers of the old entries are behind the new one.
        have hbehind : ∀ e ∈ first :: rest, e.1 ≠ number := by
          intro e he
          rcases List.mem_cons.1 he with rfl | he
          · exact Ne.symm hne
          · exact (ne_of_lt (lt_trans hlt (hfirst e he))).symm
        rw [List.mem_cons]
        exact or_congr_right ⟨fun hmem => ⟨hbehind _ hmem, hmem⟩, And.right⟩
      · rw [List.mem_cons, ih hrest, List.mem_cons]
        constructor
        · rintro (rfl | hnew | ⟨hother, hmem⟩)
          · exact .inr ⟨Ne.symm hne, .inl rfl⟩
          · exact .inl hnew
          · exact .inr ⟨hother, .inr hmem⟩
        · rintro (hnew | ⟨hother, rfl | hmem⟩)
          · exact .inr (.inl hnew)
          · exact .inl rfl
          · exact .inr (.inr ⟨hother, hmem⟩)

theorem Sorted.put (h : index.Sorted) : (index.put number offset).Sorted := by
  induction index with
  | nil => exact List.pairwise_singleton _ _
  | cons first rest ih =>
    obtain ⟨hfirst, hrest⟩ := List.pairwise_cons.1 h
    unfold OffsetIndex.put
    split
    · next heq => exact List.pairwise_cons.2 ⟨fun e he => heq ▸ hfirst e he, hrest⟩
    · next hne =>
      split
      · next hlt =>
        refine List.pairwise_cons.2 ⟨fun e he => ?_, h⟩
        rcases List.mem_cons.1 he with rfl | he
        · exact hlt
        · exact lt_trans hlt (hfirst e he)
      · next hle =>
        refine List.pairwise_cons.2 ⟨fun e he => ?_, ih hrest⟩
        rcases (mem_put hrest).1 he with rfl | ⟨_, he⟩
        · exact lt_of_le_of_ne (not_lt.1 hle) (Ne.symm hne)
        · exact hfirst e he

/-- What is left of records that were put down with their offsets, one after the other. -/
def ofLocated (located : List (Record × Nat)) : OffsetIndex :=
  located.foldl (fun index p => index.put p.1.number p.2) []

theorem ofLocated_concat (located : List (Record × Nat)) (record : Record) (offset : Nat) :
    ofLocated (located ++ [(record, offset)]) = (ofLocated located).put record.number offset := by
  rw [ofLocated, List.foldl_append]
  rfl

theorem sorted_ofLocated (located : List (Record × Nat)) : (ofLocated located).Sorted := by
  induction located using List.reverseRecOn with
  | nil => exact List.Pairwise.nil
  | append_singleton located p ih =>
    rw [ofLocated_concat]
    exact ih.put

/-- The last record with each number counts. -/
theorem mem_ofLocated {located : List (Record × Nat)} : (number, offset) ∈ ofLocated located ↔
    ∃ record, (located.filter (·.1.number = number)).getLast? = some (record, offset) := by
  induction located using List.reverseRecOn with
  | nil => simp [ofLocated]
  | append_singleton located p ih =>
    obtain ⟨last, place⟩ := p
    rw [ofLocated_concat, mem_put (sorted_ofLocated located), ih, List.filter_append]
    by_cases heq : last.number = number
    · subst heq
      simp [eq_comm]
    · simp [heq, Ne.symm heq]

theorem mem_numbers_ofLocated {located : List (Record × Nat)} :
    number ∈ (ofLocated located).map Prod.fst ↔ number ∈ (located.map Prod.fst).map Record.number := by
  have hsome : number ∈ (ofLocated located).map Prod.fst ↔
      ∃ p, (located.filter (·.1.number = number)).getLast? = some p := by
    simp only [List.mem_map, Prod.exists, exists_eq_right, exists_and_right, mem_ofLocated]
    exact exists_comm
  rw [hsome, ← Option.isSome_iff_exists, Option.isSome_iff_ne_none, ne_eq, List.getLast?_eq_none_iff,
    List.filter_eq_nil_iff]
  simp

end OffsetIndex

/-! ## Where records stand -/

namespace Iso2709.Reader

/-- There is a record at an offset, and whatever reader of the stream goes there is given it. -/
structure Stands (content : Bytes) (offset : Nat) (record : Record) : Prop where
  lt_length : offset < content.length
  read_eq : ∀ {s : Reader}, OnStream content s →
    (s.seek offset).state.read.result = .ok (some record)

variable {content : Bytes} {r : Reader}

/-- Before a record is given, the reader tells an offset inside the stream. -/
theorem Settled.tell_lt {record : Record} (h : Settled content r)
    (hread : r.read.result = .ok (some record)) : r.tell < content.length := by
  by_contra hle
  have hnone (position : Nat) (hposition : content.length ≤ position) :
      (partRead position (content.drop position)).result = .ok none := by
    rw [List.drop_of_length_le hposition]
    rfl
  cases hheld : r.grouping.held with
  | none =>
    have hpart : r.readPart.result = .ok none := by
      rw [(readPart_spec h.steady).1, h.upcoming_eq]
      exact hnone _ (tell_of_held_none hheld ▸ Nat.le_of_not_lt hle)
    rw [(read_of_none hpart).1, held?, hheld] at hread
    cases hread
  | some held =>
    have hchunk := (h.held held hheld).1
    rw [hnone _ (tell_of_held_some hheld ▸ Nat.le_of_not_lt hle)] at hchunk
    cases hchunk

theorem Settled.stands {record : Record} (h : Settled content r)
    (hread : r.read.result = .ok (some record)) : Stands content r.tell record := by
  refine ⟨h.tell_lt hread, fun hs => ?_⟩
  obtain ⟨_, hsettled, hposition, hempty⟩ := hs.seek r.tell
  exact (h.read_eq hsettled hposition hempty).1.trans hread

end Iso2709.Reader

open Iso2709.Reader (Stands)

/-! ## The walk -/

namespace OffsetIndex

/-- A visit of a record. -/
def visit (index : OffsetIndex) (before : RecordReader) (record : Record) :
    Except MarcError Unit × OffsetIndex × List Notice :=
  (.ok (), index.put record.number (before.tell?.getD 0), [])

/-- A walk puts down every record, with the offset where it stands. -/
theorem walk_of_gives {content : Bytes} {b : Iso2709.Reader} {rs : List Record} (h : Settled content b)
    (hgives : RecordReader.Gives (.binary b) rs) (before : List (Record × Nat)) :
    ∃ located : List (Record × Nat), located.map Prod.fst = rs ∧
      (∀ p ∈ located, Stands content p.2 p.1) ∧
      ((RecordReader.binary b).walk id visit (ofLocated before)).result = .ok () ∧
      ((RecordReader.binary b).walk id visit (ofLocated before)).value = ofLocated (before ++ located) := by
  induction rs generalizing b before with
  | nil =>
    cases hgives with
    | done hread => exact ⟨[], rfl, by simp, by simpa using RecordReader.walk_of_none hread⟩
  | cons record rs ih =>
    cases hgives with
    | record hread hrest =>
      have hfound : b.read.result = .ok (some record) := hread
      have hvisit : visit (ofLocated before) (.binary b) record =
          (.ok (), ofLocated (before ++ [(record, b.tell)]), []) := by
        rw [ofLocated_concat]
        rfl
      obtain ⟨located, hrecords, hstands, hresult, hvalue⟩ :=
        ih (h.toAligned.read hfound) hrest (before ++ [(record, b.tell)])
      refine ⟨(record, b.tell) :: located, by rw [List.map_cons, hrecords],
        List.forall_mem_cons.2 ⟨h.stands hfound, hstands⟩,
        (RecordReader.walk_of_record hread hvisit).1.trans hresult, ?_⟩
      rw [List.append_cons]
      exact (RecordReader.walk_of_record hread hvisit).2.trans hvalue

end OffsetIndex

/-! ## Readers of files -/

/-- A reader of a binary stream of these bytes, on which neither reading nor going back fails. -/
def RecordReader.OnBinary (content : Bytes) (r : RecordReader) : Prop :=
  ∃ b, r = .binary b ∧ OnStream content b

theorem RecordReader.OnBinary.read {content : Bytes} (r : RecordReader) (h : r.OnBinary content) :
    r.read.state.OnBinary content := by
  obtain ⟨b, rfl, hb⟩ := h
  exact ⟨b.read.state, rfl, hb.read⟩

theorem RecordReader.OnBinary.iterate {content : Bytes} {r : RecordReader} (h : r.OnBinary content)
    (n : Nat) : (r.iterate n).2.1.OnBinary content := by
  induction n generalizing r with
  | zero => exact h
  | succ n ih =>
    have hnext := RecordReader.OnBinary.read r h
    rw [RecordReader.iterate]
    split
    · next heq => simpa only [heq] using hnext
    · next heq =>
      rw [heq] at hnext
      exact ih hnext
    · next heq =>
      rw [heq] at hnext
      exact ih hnext

theorem Iso2709.Reader.withContent_seek (b : Iso2709.Reader) (content : Array UInt8) (offset : Nat) :
    (b.seek offset).state.withContent content = ((b.withContent content).seek offset).state := by
  cases h : b.source.seekFailure <;> simp [Reader.seek, withContent, Source.seek, h]

namespace FileReader

/-- What becomes of a reader by any calls, whatever these come to. -/
inductive Reached (t : FileTree) (r : FileReader) : FileReader → Prop where
  | refl : Reached t r r
  | read {s : FileReader} (h : Reached t r s) : Reached t r (s.read t).state
  | readAll {s : FileReader} (h : Reached t r s) : Reached t r (s.readAll t).state
  | iterate {s : FileReader} (h : Reached t r s) (n : Nat) : Reached t r (s.iterate t n).2.1
  | offsets {s : FileReader} (h : Reached t r s) : Reached t r (s.offsets t).state
  | rewind {s : FileReader} (h : Reached t r s) : Reached t r (s.rewind t).state
  | seek {s : FileReader} (h : Reached t r s) (offset : Nat) : Reached t r (s.seek offset).state

/-- A reader of a binary file. -/
structure OnFile (file : FileId) (r : FileReader) : Prop where
  file_eq : r.file = some file
  records : ∃ content, r.records.OnBinary content

variable {t : FileTree} {file : FileId} {r : FileReader}

theorem onFile_ofNode (path : String) (file : FileId) : (ofNode path (.file file) .binary).OnFile file :=
  ⟨rfl, [], _, rfl, rfl, rfl, rfl⟩

theorem OnFile.bytes_eq (h : r.OnFile file) : r.bytes t = t.bytes file := by
  rw [bytes, h.file_eq]
  rfl

theorem OnFile.current (h : r.OnFile file) : (r.current t).OnBinary (t.bytes file).toList := by
  obtain ⟨content, b, hrecords, hb⟩ := h.records
  rw [FileReader.current, hrecords, h.bytes_eq]
  exact ⟨_, rfl, rfl, hb.steady, hb.seekFailure_eq⟩

theorem OnFile.moved (h : r.OnFile file) {content : Bytes} {after : RecordReader}
    (hafter : after.OnBinary content) (before : RecordReader) : (r.moved t before after).OnFile file := by
  obtain ⟨b, rfl, hb⟩ := hafter
  cases before <;> exact ⟨h.file_eq, content, b, rfl, hb⟩

theorem OnFile.seek (h : r.OnFile file) (offset : Nat) : (r.seek offset).state.OnFile file := by
  obtain ⟨hfile, content, b, hrecords, hb⟩ := h
  rw [FileReader.seek, hrecords]
  dsimp only
  split
  · exact ⟨hfile, content, _, rfl, (hb.seek offset).2.1.toOnStream⟩
  · exact ⟨hfile, content, b, hrecords, hb⟩

theorem OnFile.rewind (h : r.OnFile file) : (r.rewind t).state.OnFile file := by
  obtain ⟨b, hcurrent, hb⟩ := h.current (t := t)
  rw [FileReader.rewind, hcurrent]
  exact ⟨h.file_eq, _, _, rfl, (hb.seek 0).2.1.toOnStream⟩

theorem offsets_eq (h : r.OnFile file) : r.offsets t =
    let w := (r.current t).walk id OffsetIndex.visit (OffsetIndex.ofLocated [])
    ⟨w.result.map fun _ => w.value, r.moved t (r.current t) w.reader, w.notices⟩ := by
  obtain ⟨content, b, hrecords, _⟩ := h.records
  rw [offsets, tell, hrecords]
  rfl

/-- A reader of a binary file stays one. -/
theorem Reached.onFile {s : FileReader} (h : r.Reached t s) (hr : r.OnFile file) : s.OnFile file := by
  induction h with
  | refl => exact hr
  | read _ ih => exact ih.moved (RecordReader.OnBinary.read _ ih.current) _
  | readAll _ ih =>
    exact ih.moved (RecordReader.walk_keeps_reader RecordReader.OnBinary.read ih.current) _
  | iterate _ n ih => exact ih.moved (ih.current.iterate n) _
  | offsets _ ih =>
    rw [offsets_eq ih]
    exact ih.moved (RecordReader.walk_keeps_reader RecordReader.OnBinary.read ih.current) _
  | rewind _ ih => exact ih.rewind
  | seek _ offset ih => exact ih.seek offset

/-- From the offset where it stands, a record is read. -/
theorem OnFile.read_seek (h : r.OnFile file) {offset : Nat} {record : Record}
    (hstands : Stands (t.bytes file).toList offset record) (hlimit : offset < offsetLimit) :
    (r.seek offset).result = .ok () ∧ ((r.seek offset).state.read t).result = .ok (some record) := by
  have hfile := (h.seek offset).file_eq
  obtain ⟨content, b, hrecords, hb⟩ := h.records
  have hseek : r.seek offset = (b.seek offset).mapState fun b => { r with records := .binary b } := by
    rw [FileReader.seek, hrecords]
    exact if_pos hlimit
  rw [hseek] at hfile ⊢
  refine ⟨(hb.seek offset).1, ?_⟩
  have hstream : OnStream (t.bytes file).toList (b.withContent (t.bytes file)) :=
    ⟨rfl, hb.steady, hb.seekFailure_eq⟩
  have hread := hstands.read_eq hstream
  rw [← Iso2709.Reader.withContent_seek, ← h.bytes_eq] at hread
  exact hread

end FileReader

/-! ## Opening -/

namespace FileTree

variable {t : FileTree} {path : String} {format : Option RecordFormat} {r : FileReader}

theorem openReader_eq_ofNode (h : (t.openReader path format).1 = .ok r) :
    ∃ node f, r = .ofNode path node f := by
  have hopened (f : RecordFormat) (h : t.openAs path f = .ok r) :
      ∃ node f, r = .ofNode path node f := by
    unfold openAs at h
    split at h
    · cases h
    · next node _ => exact ⟨node, f, (Except.ok.inj h).symm⟩
  unfold openReader at h
  split at h
  · exact hopened _ h
  · split at h
    · cases h
    · exact hopened _ h

/-- A folder can be opened, but not read. -/
theorem readAll_ofNode_folder (t : FileTree) (path : String) :
    ((FileReader.ofNode path .folder .binary).readAll t).result = .error (.streamFailed isAFolder) := by
  generalize hb : Iso2709.Reader.ofSource { Source.ofArray #[] with
    block := blockSize, failAt := some 0, readFailure := isAFolder } = b
  have htake : b.source.take 5 = (.error isAFolder, { b.source with deliveries := 1 }) := by
    subst hb
    exact Source.take_of_failed (by decide) rfl
  have hpart : b.readPart.result = .error (.streamFailed isAFolder) := by
    rw [Iso2709.Reader.readPart, htake]
  have hcurrent : (FileReader.ofNode path .folder .binary).current t = .binary b := by
    subst hb
    rfl
  rw [FileReader.readAll, hcurrent]
  exact RecordReader.readAll_of_error (Iso2709.Reader.read_of_error hpart).1

/-- What can be read to the end as binary records is a file. -/
theorem exists_file (hopen : (t.openReader path format).1 = .ok r) (hbinary : r.format = .binary)
    {rs : List Record} (hread : (r.readAll t).result = .ok rs) :
    ∃ file, r = .ofNode path (.file file) .binary := by
  obtain ⟨node, f, rfl⟩ := openReader_eq_ofNode hopen
  cases f with
  | xml => cases hbinary
  | binary =>
    cases node with
    | file file => exact ⟨file, rfl⟩
    | folder =>
      rw [readAll_ofNode_folder] at hread
      cases hread

/-! ## Main result -/

/-- **The index of offsets.** Of a binary file that can be read to the end, the index has the control numbers
of its logical records, and of nothing else. From each offset in it a reader is given the last record with that
number, merged from all its physical records, whatever calls it took before. That the file is not larger than
offsets can tell is so for every file there is. -/
theorem offsets_spec {rs : List Record} (hopen : (t.openReader path format).1 = .ok r)
    (hbinary : r.format = .binary) (hread : (r.readAll t).result = .ok rs)
    (hsize : (r.bytes t).size ≤ FileReader.offsetLimit) :
    ∃ parts index, Iso2709.Holds (r.bytes t).toList parts ∧ rs = Iso2709.grouped none parts ∧
      (r.offsets t).result = .ok index ∧ index.Sorted ∧
      (∀ number, number ∈ index.map Prod.fst ↔ number ∈ rs.map Record.number) ∧
      ∀ number offset, (number, offset) ∈ index →
        ∃ record, (rs.filter (·.number = number)).getLast? = some record ∧
          ∀ s, r.Reached t s → (s.seek offset).result = .ok () ∧
            ((s.seek offset).state.read t).result = .ok (some record) := by
  obtain ⟨file, rfl⟩ := exists_file hopen hbinary hread
  have hfile := FileReader.onFile_ofNode path file
  obtain ⟨source, hcurrent, hsteady, hup⟩ := current_ofNode t path file
  rw [hfile.bytes_eq] at hsize ⊢
  have hall : (RecordReader.binary (.ofSource source)).readAll.result = .ok rs := hcurrent ▸ hread
  obtain ⟨parts, hparts, hgrouped⟩ := (Iso2709.Reader.readAll_eq_ok_iff_holds hsteady).1 hall
  obtain ⟨b, hb, hstream⟩ := hfile.current (t := t)
  cases hcurrent.symm.trans hb
  have hsettled : Settled (t.bytes file).toList (.ofSource source) :=
    ⟨⟨hstream, hup⟩, by simp [Iso2709.Reader.ofSource, Iso2709.Grouping.empty]⟩
  obtain ⟨located, rfl, hstands, hresult, hvalue⟩ :=
    OffsetIndex.walk_of_gives hsettled (RecordReader.gives_of_readAll hall) []
  refine ⟨parts, .ofLocated located, hup ▸ hparts, hgrouped, ?_,
    OffsetIndex.sorted_ofLocated located, fun _ => OffsetIndex.mem_numbers_ofLocated, ?_⟩
  · rw [FileReader.offsets_eq hfile, hcurrent]
    dsimp only
    rw [hresult, hvalue]
    rfl
  · intro number offset hentry
    obtain ⟨record, hlast⟩ := OffsetIndex.mem_ofLocated.1 hentry
    have hlocated := hstands _ (List.mem_of_mem_filter (List.mem_of_getLast? hlast))
    refine ⟨record, ?_, fun s hs => (hs.onFile hfile).read_seek hlocated ?_⟩
    · rw [List.filter_map, List.getLast?_map]
      exact congrArg (Option.map Prod.fst) hlast
    · rw [← Array.length_toList] at hsize
      exact Nat.lt_of_lt_of_le hlocated.lt_length hsize

private theorem last_threeRecords :
    ((threeRecords.map Iso2709.readBack).filter (·.number = "1")).getLast? =
      some (Iso2709.readBack (Iso2709.titled "1" "  \x1FaC")) := by
  have hnumber : ∀ r ∈ threeRecords, (Iso2709.readBack r).number = r.number :=
    fun r hr => number_readBack (storable_threeRecords r hr)
  have hlast : (threeRecords.filter (·.number = "1")).getLast? = some (Iso2709.titled "1" "  \x1FaC") := rfl
  rw [List.filter_map, List.getLast?_map,
    List.filter_congr fun r hr => by rw [Function.comp_apply, hnumber r hr], hlast]
  rfl

/-- Of three records two have the same number, and the index leads to the second of these. -/
theorem offsets_spec_three :
    let t := ofRecords "a.mrc" threeRecords
    ∃ r index, (t.openReader "a.mrc" none).1 = .ok r ∧ (r.offsets t).result = .ok index ∧
      (∀ number, number ∈ index.map Prod.fst ↔ number ∈ ["1", "2", "1"]) ∧
      ∀ offset, ("1", offset) ∈ index → ∀ s, r.Reached t s →
        ((s.seek offset).state.read t).result =
          .ok (some (Iso2709.readBack (Iso2709.titled "1" "  \x1FaC"))) := by
  intro t
  obtain ⟨_, r, hopen, hbinary, hread, hbytes⟩ :=
    reads_threeRecords (show (empty.withFile ["a.mrc"]).find "a.mrc" = .ok (.file 0) by decide) rfl
  have hsize : (r.bytes t).size ≤ FileReader.offsetLimit := by
    have hlength : (encodeAll threeRecords).length ≤ 300 := by decide +kernel
    rw [hbytes, List.size_toArray]
    exact hlength.trans (by decide)
  obtain ⟨_, index, _, _, hindex, _, hnumbers, hentries⟩ := offsets_spec hopen hbinary hread hsize
  refine ⟨r, index, hopen, hindex, fun number => ?_, fun offset hentry s hs => ?_⟩
  · rw [hnumbers, numbers_threeRecords]
  · obtain ⟨record, hlast, hagain⟩ := hentries "1" offset hentry
    rw [(hagain s hs).2, ← hlast, last_threeRecords]

end FileTree

end Marc21
