import Mathlib.Data.Finset.Card
import Marc21.File.Duplicates
import Marc21.Proofs.File.Path
import Marc21.Proofs.File.Reader
import Marc21.Proofs.File.Sink
import Marc21.Proofs.Format.Writer

/-!
Removing duplicates from a file. What stays is the first record for each control number (`firsts`), in order.
No two of these have the same control number, so reading does not take them for parts of one record, and a
second run finds nothing to remove. Until the second file is complete the first one is not touched
(`removeDuplicates_spec`).
-/

namespace Marc21

open Iso2709 (Writer)
open Iso2709.Reader (encodeAll)

/-! ## The first record for each control number -/

/-- The control number by which duplicates are told. Records without one share the empty text. -/
def Record.number (r : Record) : String := r.controlNumber?.getD ""

theorem number_readBack {r : Record} (h : r.Storable) : (Iso2709.readBack r).number = r.number := by
  rw [Record.number, Iso2709.controlNumber?_readBack h, Record.number]

/-- The first record for each control number. -/
def firsts (rs : List Record) : List Record := rs.eraseDupsBy fun r s => r.number == s.number

theorem firsts_cons (r : Record) (rs : List Record) :
    firsts (r :: rs) = r :: firsts (rs.filter fun s => s.number ≠ r.number) := by
  rw [firsts, List.eraseDupsBy_cons, ← firsts]
  congr 2
  apply List.filter_congr
  intro s _
  by_cases h : s.number = r.number <;> simp [h]

/-- Induction where a record takes away all later ones with its number. -/
@[elab_as_elim]
theorem firsts_induction {motive : List Record → Prop} (nil : motive [])
    (cons : ∀ r rs, motive (rs.filter fun s => s.number ≠ r.number) → motive (r :: rs)) :
    ∀ rs, motive rs
  | [] => nil
  | r :: rs => cons r rs (firsts_induction nil cons _)
termination_by rs => rs.length
decreasing_by
  have := List.length_filter_le (fun s => decide (s.number ≠ r.number)) rs
  simp only [List.length_cons]
  omega

theorem mem_of_mem_firsts {rs : List Record} {r : Record} (h : r ∈ firsts rs) : r ∈ rs := by
  induction rs using firsts_induction with
  | nil => exact h
  | cons first rs ih =>
    rw [firsts_cons] at h
    rcases List.mem_cons.1 h with rfl | h
    · exact List.mem_cons_self
    · exact List.mem_cons_of_mem _ (List.mem_of_mem_filter (ih h))

theorem head?_firsts (rs : List Record) : (firsts rs).head? = rs.head? := by
  cases rs with
  | nil => rfl
  | cons r rs => rw [firsts_cons]; rfl

theorem nodup_firsts (rs : List Record) : ((firsts rs).map Record.number).Nodup := by
  induction rs using firsts_induction with
  | nil => exact List.nodup_nil
  | cons first rs ih =>
    rw [firsts_cons, List.map_cons, List.nodup_cons]
    refine ⟨fun hmem => ?_, ih⟩
    obtain ⟨r, hr, heq⟩ := List.mem_map.1 hmem
    exact of_decide_eq_true (List.mem_filter.1 (mem_of_mem_firsts hr)).2 heq

theorem mem_numbers_firsts {rs : List Record} {number : String} :
    number ∈ (firsts rs).map Record.number ↔ number ∈ rs.map Record.number := by
  induction rs using firsts_induction with
  | nil => exact Iff.rfl
  | cons first rs ih =>
    rw [firsts_cons, List.map_cons, List.map_cons, List.mem_cons, List.mem_cons, ih]
    by_cases heq : number = first.number
    · simp [heq]
    · simp only [heq, false_or, List.mem_map, List.mem_filter, decide_eq_true_eq]
      constructor
      · rintro ⟨r, ⟨hr, _⟩, rfl⟩
        exact ⟨r, hr, rfl⟩
      · rintro ⟨r, hr, rfl⟩
        exact ⟨r, ⟨hr, heq⟩, rfl⟩

/-- There is one for each control number. -/
theorem length_firsts (rs : List Record) :
    (firsts rs).length = (rs.map Record.number).toFinset.card := by
  have hsame : ((firsts rs).map Record.number).toFinset = (rs.map Record.number).toFinset := by
    ext number
    rw [List.mem_toFinset, List.mem_toFinset, mem_numbers_firsts]
  rw [← hsame, List.toFinset_card_of_nodup (nodup_firsts rs), List.length_map]

theorem length_firsts_of_nodup {rs : List Record} (h : (rs.map Record.number).Nodup) :
    (firsts rs).length = rs.length := by
  rw [length_firsts, List.toFinset_card_of_nodup h, List.length_map]

/-- So no two neighbours are taken for parts of one record. -/
theorem isChain_firsts (rs : List Record) :
    (firsts rs).IsChain fun r s => r.controlNumber? ≠ s.controlNumber? := by
  have hpairs := List.pairwise_map.1 (nodup_firsts rs)
  refine (hpairs.imp fun hne heq => hne ?_).isChain
  rw [Record.number, heq, ← Record.number]

/-! ## Sifting -/

namespace Sifting

/-- A visit of a record, whatever reader it came from. -/
def visit (s : Sifting) (_ : RecordReader) (r : Record) : Except MarcError Unit × Sifting × List Notice :=
  s.step r

/-- A binary writer at the end of a file takes the records that stay. -/
structure Ready (t : FileTree) (file : FileId) (s : Sifting) : Prop where
  writer : ∃ w, s.writer = .binary w ∧ w.finished = false
  sound : FileSink.Sound t file s.writer.sink

/-- Nothing but one file of a tree was written to. -/
def Confined (t : FileTree) (file : FileId) (s : Sifting) : Prop := s.writer.sink.Confined t file

section

variable {t : FileTree} {file : FileId} {s : Sifting} {r : Record}

theorem Confined.visit (h : s.Confined t file) (reader : RecordReader) (r : Record) :
    (s.visit reader r).2.1.Confined t file := by
  rw [Sifting.visit, step]
  dsimp only
  split
  · exact h
  · exact (FileSink.lasting_confined t file).recordWrite h r

theorem step_of_seen (h : r.number ∈ s.seen) :
    s.step r = (.ok (), { s with dropped := s.dropped + 1 }, []) := by
  have hseen : s.seen.contains (r.controlNumber?.getD "") = true := List.contains_iff_mem.2 h
  simp only [step, hseen, if_true]

/-- A record with a new control number is written. -/
theorem Ready.step_of_new (hs : s.Ready t file) (h : r.number ∉ s.seen) {chunks : List Bytes}
    (hr : Writer.encoded r = .ok chunks) : ∃ next notices, s.step r = (.ok (), next, notices) ∧
      next.Ready t file ∧ next.writer.sink.taken = s.writer.sink.taken ++ encodeAll [r] ∧
      next.seen = r.number :: s.seen ∧ next.dropped = s.dropped := by
  obtain ⟨w, hw, hunfinished⟩ := hs.writer
  have hend := hs.sound
  rw [hw] at hend
  obtain ⟨sink, notices, hwrite, hafter, htaken⟩ :=
    Iso2709.write_spec (FileSink.reliable t file) hunfinished hend hr
  have hnew : s.seen.contains (r.controlNumber?.getD "") = false := by simpa [Record.number] using h
  have hstep : s.step r = (.ok (), ⟨.binary { w with sink, recordsWritten := w.recordsWritten + 1 },
      r.number :: s.seen, s.dropped⟩, notices) := by
    simp only [step, hnew, Bool.false_eq_true, if_false, hw, RecordWriter.write, hwrite, Outcome.mapState]
    rfl
  refine ⟨_, notices, hstep, ⟨⟨_, rfl, hunfinished⟩, hafter⟩, ?_, rfl, rfl⟩
  rw [hw, encodeAll, List.flatMap_singleton,
    ← (Iso2709.split_eq_ok (Iso2709.Writer.encoded_eq_ok hr).2).2]
  exact htaken

/-- Of the records that a reader gives, the first for each new control number are written. -/
theorem walk_spec {reader : RecordReader} {rs : List Record} (h : RecordReader.Gives reader rs)
    (hs : s.Ready t file) (hrs : ∀ r ∈ rs, ∃ chunks, Writer.encoded r = .ok chunks) :
    let walked := reader.walk (id : MarcError → MarcError) visit s
    let kept := firsts (rs.filter (·.number ∉ s.seen))
    walked.result = .ok () ∧ walked.value.Ready t file ∧
      walked.value.writer.sink.taken = s.writer.sink.taken ++ encodeAll kept ∧
      walked.value.dropped + kept.length = s.dropped + rs.length := by
  dsimp only
  induction h generalizing s with
  | done h =>
    obtain ⟨hresult, hvalue⟩ := RecordReader.walk_of_none h
    rw [hresult, hvalue]
    exact ⟨rfl, hs, (List.append_nil _).symm, rfl⟩
  | @record reader r rs h rest ih =>
    obtain ⟨⟨chunks, hr⟩, hrs⟩ := List.forall_mem_cons.1 hrs
    by_cases hseen : r.number ∈ s.seen
    · have hvisit : visit s reader r = _ := step_of_seen hseen
      obtain ⟨hresult, hvalue⟩ := RecordReader.walk_of_record h hvisit
      obtain ⟨hok, hready, htaken, hdropped⟩ :=
        ih (s := { s with dropped := s.dropped + 1 }) ⟨hs.writer, hs.sound⟩ hrs
      rw [hresult, hvalue, List.filter_cons_of_neg (by simpa using hseen)]
      refine ⟨hok, hready, htaken, ?_⟩
      rw [List.length_cons]
      dsimp only at hdropped
      omega
    · obtain ⟨next, notices, hstep, hnext, htaken, hnextseen, hnextdropped⟩ := hs.step_of_new hseen hr
      have hvisit : visit s reader r = _ := hstep
      obtain ⟨hresult, hvalue⟩ := RecordReader.walk_of_record h hvisit
      obtain ⟨hok, hready, hlater, hdropped⟩ := ih hnext hrs
      -- Later records are told against one more number, which is what `firsts` leaves out behind `r`.
      have hkept : firsts ((r :: rs).filter (·.number ∉ s.seen)) =
          r :: firsts (rs.filter (·.number ∉ next.seen)) := by
        rw [List.filter_cons_of_pos (by simpa using hseen), firsts_cons, List.filter_filter, hnextseen]
        congr 2
        apply List.filter_congr
        intro other _
        simp
      rw [hresult, hvalue, hkept]
      refine ⟨hok, hready, ?_, ?_⟩
      · simp only [hlater, htaken, encodeAll, List.flatMap_cons, List.flatMap_nil, List.append_nil,
          List.append_assoc]
      · rw [List.length_cons, List.length_cons]
        omega

end

end Sifting

/-! ## The second file -/

namespace FileTree

section

variable {t u v : FileTree} {path beside name : String} {file : FileId} {source : FileReader}
  {target : FileWriter} {rs : List Record}

/-- What becomes of the second file once the records of the first one were visited. -/
private theorem sift_eq (t : FileTree) (source : FileReader) (target : FileWriter) :
    let walked := (source.current t).walk (id : MarcError → MarcError) Sifting.visit
      ⟨target.attached t, [], 0⟩
    let finished : Outcome (RecordWriter FileSink) Unit := match walked.result with
      | .error e => ⟨.error e, walked.value.writer, []⟩
      | .ok () => walked.value.writer.finish
    (t.sift source target).result = finished.result.map (fun _ => walked.value.dropped) ∧
      (t.sift source target).state = finished.state.close.1.drain.2.tree :=
  ⟨rfl, rfl⟩

/-- Writing to the second file touches no other, in either format and also when it fails. -/
theorem sameBut_sift (h : target.records.sink.file = file) :
    t.SameBut file (t.sift source target).state := by
  have hlasting := FileSink.lasting_confined t file
  have hstart : Sifting.Confined t file ⟨target.attached t, [], 0⟩ := by
    rw [Sifting.Confined, FileSink.Confined, FileWriter.sink_attached]
    exact ⟨h, .refl file t⟩
  have hvisited : Sifting.Confined t file ((source.current t).walk (id : MarcError → MarcError)
      Sifting.visit ⟨target.attached t, [], 0⟩).value :=
    RecordReader.walk_keeps (fun s reader r hs => hs.visit reader r) hstart
  rw [(sift_eq t source target).2]
  split
  · exact (hlasting.flush (hlasting.recordClose hvisited)).2
  · exact (hlasting.flush (hlasting.recordClose (hlasting.recordFinish hvisited))).2

/-- A second file that was opened for binary records is empty and ready. -/
private theorem ready_opened (hfile : file < v.files.size) (hv : v.faults = [])
    (hopen : FileWriter.detached beside
      (RecordWriter.ofFormat .binary (FileSink.opened v file .overwrite) (some fileIndent)) = (target, t)) :
    Sifting.Ready t file ⟨target.attached t, [], 0⟩ ∧ (target.attached t).sink.taken = [] := by
  have hattached : target.attached t = .binary ⟨⟨t, ⟨file, some 0, #[]⟩⟩, 0, false⟩ := by
    obtain ⟨rfl, rfl⟩ := Prod.mk.inj hopen
    exact FileWriter.attached_detached beside _
  have htree : t = v.setBytes file #[] := (Prod.mk.inj hopen).2.symm
  have hempty : t.bytes file = #[] := by rw [htree, bytes_setBytes hfile]
  rw [hattached]
  refine ⟨⟨⟨_, rfl, rfl⟩, ⟨rfl, ?_, .refl file t, ?_⟩, htree ▸ hv⟩, ?_⟩
  · rw [htree, setBytes, Array.size_setIfInBounds]
    exact hfile
  · rintro offset ⟨⟩
    rw [RecordWriter.sink, hempty]
    rfl
  · rw [RecordWriter.sink, FileSink.taken, hempty]
    rfl

/-- Of a file that can be read, the first records are written, and the others are counted. -/
theorem sift_spec (hfile : file < v.files.size) (hv : v.faults = [])
    (hopen : FileWriter.detached beside
      (RecordWriter.ofFormat .binary (FileSink.opened v file .overwrite) (some fileIndent)) = (target, t))
    (hread : RecordReader.Gives (source.current t) rs)
    (hrs : ∀ r ∈ rs, ∃ chunks, Writer.encoded r = .ok chunks) :
    (t.sift source target).result = .ok (rs.length - (firsts rs).length) ∧
      (t.sift source target).state = t.setBytes file (encodeAll (firsts rs)).toArray := by
  obtain ⟨hready, hempty⟩ := ready_opened hfile hv hopen
  have ht : t.faults = [] := by
    rw [← (Prod.mk.inj hopen).2]
    exact hv
  have hwalk := Sifting.walk_spec hread hready hrs
  obtain ⟨hresult, hstate⟩ := sift_eq t source target
  dsimp only at hwalk hresult hstate
  generalize (source.current t).walk (id : MarcError → MarcError) Sifting.visit _ = walked
    at hwalk hresult hstate
  obtain ⟨hok, ⟨⟨w, hw, _⟩, hend⟩, htaken, hdropped⟩ := hwalk
  have hall : rs.filter (fun r => decide (r.number ∉ ([] : List String))) = rs :=
    List.filter_eq_self.2 fun r _ => by simp
  have hsink : (RecordWriter.binary w).sink = w.sink := rfl
  rw [hall] at htaken hdropped
  rw [hw, hsink] at hend htaken
  obtain ⟨hdrain, hdrained, hsame, _⟩ := hend.drain
  have hflush : ByteSink.flush w.sink = (.ok (), w.sink.drain.2) := Prod.ext hdrain rfl
  have hfinish : (RecordWriter.binary w).finish =
      ⟨.ok (), .binary { w with sink := w.sink.drain.2, finished := true }, []⟩ := by
    simp only [RecordWriter.finish, Writer.finish, Writer.flush, hflush]
    rfl
  simp only [hok, hw, hfinish] at hresult hstate
  refine ⟨?_, ?_⟩
  · have hcount : walked.value.dropped = rs.length - (firsts rs).length := by omega
    rw [hresult, hcount]
    rfl
  · rw [hstate]
    change w.sink.drain.2.drain.2.tree = _
    rw [FileSink.tree_drain hdrained ht, hsame, htaken, hempty, List.nil_append]

/-! ## Both files -/

/-- The path of the second file. -/
def besidePath (path name : String) : String := Path.sibling path (name ++ ".dedup")

/-- A tree in which a second file was opened beside the first one. -/
structure Beside (t : FileTree) (path beside : String) (id : FileId) (target : FileWriter)
    (u : FileTree) : Prop where
  wellFormed : u.WellFormed
  find_eq : u.find path = .ok (.file id)
  find_beside : u.find beside = .ok (.file target.records.sink.file)
  ne : target.records.sink.file ≠ id
  bytes_eq : u.bytes id = t.bytes id

section

variable {id : FileId}

/-- Writing to the second file leaves the first one. -/
theorem Beside.sameBut (h : Beside t path beside id target u)
    (hsame : u.SameBut target.records.sink.file v) : Beside t path beside id target v where
  wellFormed := h.wellFormed.sameBut hsame
  find_eq := hsame.find_eq.trans h.find_eq
  find_beside := hsame.find_eq.trans h.find_beside
  ne := h.ne
  bytes_eq := (hsame.bytes id h.ne.symm).trans h.bytes_eq

theorem Beside.read_eq (h : Beside t path beside id target u) (hfind : t.find path = .ok (.file id)) :
    u.read path = t.read path := by
  rw [read_of_find h.find_eq, read_of_find hfind, h.bytes_eq]

theorem beside_of_openWriter {format : Option RecordFormat} {mode : WriteMode} (ht : t.WellFormed)
    (hfind : t.find path = .ok (.file id)) (hopen : t.openWriter beside format mode = .ok (target, u))
    (hne : target.records.sink.file ≠ id) : Beside t path beside id target u := by
  obtain ⟨v, hobtain, hsame, hfaults⟩ := obtain_of_openWriter hopen
  have hobtained := ht.obtained hobtain
  obtain ⟨_, place, _, hnode⟩ := find_eq_file.1 hfind
  refine ⟨hobtained.wellFormed.sameBut hsame, hsame.find_eq.trans (hobtained.find_of_find hfind),
    hsame.find_eq.trans hobtained.find_eq, hne, ?_⟩
  rw [hsame.bytes id hne.symm, hobtained.bytes_eq (ht.lt_size hnode)]

/-- If no other place holds the first file, it is not opened as the second one. -/
theorem Sole.openWriter_ne {f : RecordFormat} (hsole : t.Sole id) (ht : t.WellFormed)
    (hfind : t.find path = .ok (.file id)) (hname : Path.fileName? path = some name)
    (hopen : t.openWriter (besidePath path name) (some f) .overwrite = .ok (target, u)) :
    target.records.sink.file ≠ id := by
  obtain ⟨v, hobtain, _⟩ := obtain_of_openWriter hopen
  exact hsole.obtained_ne ht hfind hname (by decide) (by decide) hobtain

/-- A call that fails leaves the file as it was, wherever it fails. -/
theorem read_removeDuplicates_of_error {e : MarcError} (ht : t.WellFormed)
    (hsole : ∀ id, t.find path = .ok (.file id) → t.Sole id)
    (h : (t.removeDuplicates path).result = .error e) :
    (t.removeDuplicates path).state.read path = t.read path := by
  unfold removeDuplicates at h ⊢
  cases hname : Path.fileName? path with
  | none => rfl
  | some name =>
    simp only [hname] at h ⊢
    rcases hsource : t.openReader path none with ⟨opened, notices⟩
    simp only [hsource] at h ⊢
    cases opened with
    | error e => rfl
    | ok source =>
      dsimp only at h ⊢
      cases htarget : t.openWriter (besidePath path name) (some source.format) .overwrite with
      | error e =>
        rw [besidePath] at htarget
        simp only [htarget]
      | ok opened =>
        obtain ⟨target, u⟩ := opened
        obtain ⟨id, f, hfind, _⟩ := openReader_eq_ok (congrArg Prod.fst hsource)
        have hbeside := beside_of_openWriter ht hfind htarget
          ((hsole id hfind).openWriter_ne ht hfind hname htarget)
        have hkept : (u.sift source target).state.read path = t.read path :=
          (hbeside.sameBut (sameBut_sift rfl)).read_eq hfind
        rw [besidePath] at htarget
        simp only [htarget] at h ⊢
        generalize u.sift source target = sifted at hkept h ⊢
        obtain ⟨result, v, more⟩ := sifted
        cases result with
        | error e => exact hkept
        | ok dropped =>
          dsimp only at h hkept ⊢
          cases hmove : v.moveFile (Path.sibling path (name ++ ".dedup")) path with
          | error failure => exact hkept
          | ok moved =>
            rw [hmove] at h
            cases h

/-- A call that succeeds. -/
theorem removeDuplicates_of_moveFile {dropped : Nat} (hname : Path.fileName? path = some name)
    (hsource : (t.openReader path none).1 = .ok source)
    (htarget : t.openWriter (besidePath path name) (some source.format) .overwrite = .ok (target, u))
    (hsift : (u.sift source target).result = .ok dropped)
    (hmove : (u.sift source target).state.moveFile (besidePath path name) path = .ok v) :
    (t.removeDuplicates path).result = .ok dropped ∧ (t.removeDuplicates path).state = v := by
  rcases hopened : t.openReader path none with ⟨opened, notices⟩
  rw [hopened] at hsource
  rcases hsifted : u.sift source target with ⟨result, w, more⟩
  rw [hsifted] at hsift hmove
  dsimp only at hsource hsift hmove
  rw [besidePath] at htarget hmove
  simp only [removeDuplicates, hname, hopened, hsource, htarget, hsifted, hsift, hmove, and_self]

/-! ## Running it again -/

/-- A file of binary records that can all be written again, to a second file beside it. -/
structure Siftable (t : FileTree) (path name : String) (id : FileId) (rs : List Record) : Prop where
  wellFormed : t.WellFormed
  faults : t.faults = []
  name_eq : Path.fileName? path = some name
  find_eq : t.find path = .ok (.file id)
  format_eq : formatOf? path (t.bytes id).toList = some .binary
  openWriter_eq : ∃ target u, target.records.sink.file ≠ id ∧
    t.openWriter (besidePath path name) (some .binary) .overwrite = .ok (target, u)
  readAll_eq : ((FileReader.ofNode path (.file id) .binary).current t).readAll.result = .ok rs
  encoded : ∀ r ∈ rs, ∃ chunks, Writer.encoded r = .ok chunks

theorem Siftable.openReader_eq (h : Siftable t path name id rs) :
    (t.openReader path none).1 = .ok (.ofNode path (.file id) .binary) := by
  rw [openReader_of_find h.find_eq, h.format_eq]

/-- The file is replaced by one with the first records, and the path of the second file is free again. -/
theorem Siftable.run (h : Siftable t path name id rs) :
    (t.removeDuplicates path).result = .ok (rs.length - (firsts rs).length) ∧
      ∃ file, let u := (t.removeDuplicates path).state
        u.WellFormed ∧ u.faults = [] ∧ u.find path = .ok (.file file) ∧
          u.bytes file = (encodeAll (firsts rs)).toArray ∧ ∃ target v, target.records.sink.file ≠ file ∧
            u.openWriter (besidePath path name) (some .binary) .overwrite = .ok (target, v) := by
  obtain ⟨target, u, hne, htarget⟩ := h.openWriter_eq
  have hbeside := beside_of_openWriter h.wellFormed h.find_eq htarget hne
  obtain ⟨f, file, v, hf, hobtain, hdetached⟩ := openWriter_eq_ok htarget
  obtain rfl := hf _ rfl
  have hfile : target.records.sink.file = file := (Prod.mk.inj hdetached).1 ▸ rfl
  have hobtained := h.wellFormed.obtained hobtain
  obtain ⟨_, _, _, hnode⟩ := find_eq_file.1 hobtained.find_eq
  have hread : RecordReader.Gives ((FileReader.ofNode path (.file id) .binary).current u) rs := by
    rw [current_congr .binary hbeside.bytes_eq]
    exact RecordReader.gives_of_readAll h.readAll_eq
  have hfaults : v.faults = [] := hobtained.faults_eq.trans h.faults
  obtain ⟨hresult, hstate⟩ :=
    sift_spec (hobtained.wellFormed.lt_size hnode) hfaults hdetached hread h.encoded
  have hsame : u.SameBut target.records.sink.file
      (u.sift (.ofNode path (.file id) .binary) target).state := sameBut_sift rfl
  have hsifted := hbeside.sameBut hsame
  obtain ⟨w, hmove, hmoved⟩ := hsifted.wellFormed.moved hsifted.find_beside hsifted.find_eq hsifted.ne
  obtain ⟨hrun, hafter⟩ := removeDuplicates_of_moveFile h.name_eq h.openReader_eq htarget hresult hmove
  refine ⟨hrun, file, ?_⟩
  rw [hafter]
  have hbytes : w.bytes file = (encodeAll (firsts rs)).toArray := by
    obtain ⟨_, _, _, htaken⟩ := find_eq_file.1 (hfile ▸ hbeside.find_beside)
    rw [bytes, hmoved.files, ← bytes, hstate, bytes_setBytes (hbeside.wellFormed.lt_size htaken)]
  have hfind : w.find path = .ok (.file file) := hfile ▸ hmoved.find_eq
  obtain ⟨_, _, _, hthere⟩ := find_eq_file.1 hfind
  obtain ⟨later, hmade⟩ := hmoved.exists_obtain hsifted.find_beside
  refine ⟨hmoved.wellFormed, ?_, hfind, hbytes, _, _, ?_, openWriter_of_obtain (.inl rfl) hmade⟩
  · rw [hmoved.faults, hstate, ← (Prod.mk.inj hdetached).2]
    exact hfaults
  · exact (Nat.ne_of_lt (hmoved.wellFormed.lt_size hthere)).symm

/-- What is left can be sifted in turn: it is read as the same fields, and they can be written. -/
theorem Siftable.again (h : Siftable t path name id rs)
    (hsingle : ∀ r ∈ rs, (r.fields.filter (·.tag = Tag.controlNumber)).length = 1) :
    (∃ file, Siftable (t.removeDuplicates path).state path name file ((firsts rs).map Iso2709.readBack)) ∧
      (∀ r ∈ firsts rs, (Iso2709.readBack r).fields = r.fields) ∧
      ((firsts rs).map Iso2709.readBack).map Record.number = (firsts rs).map Record.number := by
  obtain ⟨source, hcurrent, hsteady, hup⟩ := current_ofNode t path id
  have hread := h.readAll_eq
  rw [hcurrent] at hread
  have htaken := Iso2709.taken_of_readAll hsteady hread
  have hstorable : ∀ r ∈ firsts rs, r.Storable := by
    intro r hr
    have hr := mem_of_mem_firsts hr
    obtain ⟨chunks, hchunks⟩ := h.encoded r hr
    exact (htaken r hr).storable hchunks (hsingle r hr)
  have hfields : ∀ r ∈ firsts rs, (Iso2709.readBack r).fields = r.fields :=
    fun r hr => (htaken r (mem_of_mem_firsts hr)).fields_readBack
  obtain ⟨_, file, hwellFormed, hfaults, hfind, hbytes, hopen⟩ := h.run
  refine ⟨⟨file, hwellFormed, hfaults, h.name_eq, hfind, ?_, hopen, ?_, ?_⟩, hfields, ?_⟩
  · -- The format is told by the first record, and that one always stays.
    obtain ⟨parts, hparts, hrs⟩ := (Iso2709.Reader.readAll_eq_ok_iff_holds hsteady).1 hread
    have hfirst : (firsts rs).head? = (Iso2709.grouped none parts).head? := by
      rw [head?_firsts, hrs]
    rw [hbytes, ← h.format_eq, formatOf?, formatOf?, ← hup,
      ← ofOpening?_encodeAll hparts hstorable hfirst]
  · exact readAll_ofNode path hbytes hstorable (isChain_firsts rs)
  · intro again hagain
    obtain ⟨r, hr, rfl⟩ := List.mem_map.1 hagain
    exact Iso2709.encoded_readBack (hstorable r hr) (hfields r hr)
  · rw [List.map_map]
    exact List.map_congr_left fun r hr => number_readBack (hstorable r hr)

/-! ## Main result -/

/-- **Removing duplicates keeps the first records, or leaves the file.** A call that fails leaves the file as
it was, wherever it fails, so long as no other place holds the file. If the file is told as binary, can be read,
its records can all be written, each with one control number, and a second file can be opened beside it and takes
in what is written, then the call succeeds and says how many records there were more than control numbers. The
file is told as binary still and read as the first record for each control number, and a second call removes
nothing. -/
theorem removeDuplicates_spec (ht : t.WellFormed) (path : String)
    (hsole : ∀ id, t.find path = .ok (.file id) → t.Sole id) :
    let u := (t.removeDuplicates path).state
    (∀ e, (t.removeDuplicates path).result = .error e → u.read path = t.read path) ∧
      ∀ {source : FileReader} {rs : List Record} {name : String} {opened : FileWriter × FileTree},
        (t.openReader path none).1 = .ok source → source.format = .binary →
        (source.readAll t).result = .ok rs →
        (∀ r ∈ rs, (r.fields.filter (·.tag = Tag.controlNumber)).length = 1 ∧
          ((Writer.ofSink BoundedSink.unbounded).write r).result = .ok ()) →
        Path.fileName? path = some name →
        t.openWriter (besidePath path name) (some .binary) .overwrite = .ok opened → t.faults = [] →
        (t.removeDuplicates path).result = .ok (rs.length - (rs.map Record.number).toFinset.card) ∧
          (∃ again kept, (u.openReader path none).1 = .ok again ∧ again.format = .binary ∧
            (again.readAll u).result = .ok kept ∧
            kept.map Record.fields = (firsts rs).map Record.fields) ∧
          (u.removeDuplicates path).result = .ok 0 := by
  refine ⟨fun e h => read_removeDuplicates_of_error ht hsole h, ?_⟩
  rintro source rs name ⟨target, v⟩ hsource hbinary hread hrs hname hopen hfaults
  obtain ⟨id, f, hfind, hformat, rfl⟩ := openReader_eq_ok hsource
  obtain rfl : f = .binary := by
    cases f with
    | binary => rfl
    | xml => cases hbinary
  have hsiftable : Siftable t path name id rs :=
    ⟨ht, hfaults, hname, hfind, hformat,
      ⟨target, v, (hsole id hfind).openWriter_ne ht hfind hname hopen, hopen⟩, hread,
      fun r hr => Writer.write_unbounded_iff.1 (hrs r hr).2⟩
  obtain ⟨⟨file, hagain⟩, hfields, hnumbers⟩ := hsiftable.again fun r hr => (hrs r hr).1
  refine ⟨?_, ⟨_, _, hagain.openReader_eq, rfl, hagain.readAll_eq, ?_⟩, ?_⟩
  · rw [hsiftable.run.1, length_firsts]
  · rw [List.map_map]
    exact List.map_congr_left hfields
  · have hlength := length_firsts_of_nodup (hnumbers ▸ nodup_firsts rs)
    rw [hagain.run.1, hlength, Nat.sub_self]

end

end

/-! ### A file of three records -/

/-- A tree of one file, which holds records in binary form. -/
def ofRecords (name : String) (rs : List Record) : FileTree :=
  (empty.withFile [name]).setBytes 0 (encodeAll rs).toArray

/-- No other place holds the file. -/
theorem sole_ofRecords (hfind : (empty.withFile [name]).find name = .ok (.file 0))
    (hnode : empty.node? [name] = none) (rs : List Record) :
    ∀ id, (ofRecords name rs).find name = .ok (.file id) → (ofRecords name rs).Sole id := by
  have hsame : (empty.withFile [name]).SameBut 0 (ofRecords name rs) := sameBut_setBytes
  intro id hid
  cases (hsame.find_eq.trans hfind).symm.trans hid
  exact (wellFormed_empty.sole_withFile hnode).sameBut hsame

/-- Two of them have the same control number, but are not next to each other. -/
def threeRecords : List Record :=
  [Iso2709.titled "1" "10\x1FaA", Iso2709.titled "2" "  \x1FaB", Iso2709.titled "1" "  \x1FaC"]

theorem storable_threeRecords : ∀ r ∈ threeRecords, r.Storable := by
  intro r hr
  simp only [threeRecords, List.mem_cons, List.not_mem_nil, or_false] at hr
  rcases hr with rfl | rfl | rfl
  all_goals exact Iso2709.storable_titled (by decide)

theorem numbers_threeRecords : (threeRecords.map Iso2709.readBack).map Record.number = ["1", "2", "1"] := by
  rw [List.map_map]
  exact List.map_congr_left fun r hr => number_readBack (storable_threeRecords r hr)

private theorem fields_threeRecords : ∀ r ∈ threeRecords, (Iso2709.readBack r).fields = r.fields := by
  intro r hr
  refine sortFields_of_ordered ?_
  simp only [threeRecords, List.mem_cons, List.not_mem_nil, or_false] at hr
  rcases hr with rfl | rfl | rfl
  all_goals exact List.pairwise_pair.2 (by decide)

private theorem accepted_threeRecords : ∀ r ∈ threeRecords.map Iso2709.readBack,
    (r.fields.filter (·.tag = Tag.controlNumber)).length = 1 ∧
      ((Writer.ofSink BoundedSink.unbounded).write r).result = .ok () := by
  rw [List.forall_mem_map]
  intro r hr
  have hstorable := storable_threeRecords r hr
  have hfields := fields_threeRecords r hr
  rw [hfields]
  exact ⟨hstorable.single, Writer.write_unbounded_iff.2 (Iso2709.encoded_readBack hstorable hfields)⟩

theorem reads_threeRecords (hfind : (empty.withFile [name]).find name = .ok (.file 0))
    (hnode : empty.node? [name] = none) :
    let t := ofRecords name threeRecords
    t.WellFormed ∧ ∃ source, (t.openReader name none).1 = .ok source ∧ source.format = .binary ∧
      (source.readAll t).result = .ok (threeRecords.map Iso2709.readBack) ∧
      source.bytes t = (encodeAll threeRecords).toArray := by
  intro t
  have hwellFormed := wellFormed_empty.withFile hnode
  have hsame : (empty.withFile [name]).SameBut 0 t := sameBut_setBytes
  have hbytes : t.bytes 0 = (encodeAll threeRecords).toArray := by
    obtain ⟨_, _, _, hfile⟩ := find_eq_file.1 hfind
    exact bytes_setBytes (hwellFormed.lt_size hfile)
  have hformat : formatOf? name (t.bytes 0).toList = some .binary := by
    rw [hbytes, formatOf?, List.toList_toArray, threeRecords,
      ofOpening?_encodeAll_cons storable_threeRecords]
    rfl
  refine ⟨hwellFormed.sameBut hsame, _, ?_, rfl,
    readAll_ofNode name hbytes storable_threeRecords (by rw [threeRecords]; decide), hbytes⟩
  rw [openReader_of_find (hsame.find_eq.trans hfind), hformat]

/-- One of three records is removed, and none by a second call. -/
theorem removeDuplicates_spec_three :
    let t := ofRecords "a.mrc" threeRecords
    let u := (t.removeDuplicates "a.mrc").state
    (t.removeDuplicates "a.mrc").result = .ok 1 ∧
      (∃ again kept, (u.openReader "a.mrc" none).1 = .ok again ∧ again.format = .binary ∧
        (again.readAll u).result = .ok kept ∧
        kept.map Record.fields = (firsts (threeRecords.map Iso2709.readBack)).map Record.fields) ∧
      (u.removeDuplicates "a.mrc").result = .ok 0 := by
  intro t u
  have hfind : (empty.withFile ["a.mrc"]).find "a.mrc" = .ok (.file 0) := by decide
  obtain ⟨ht, source, hsource, hbinary, hread, _⟩ := reads_threeRecords hfind rfl
  have hsole := sole_ofRecords hfind rfl threeRecords
  have hsame : (empty.withFile ["a.mrc"]).SameBut 0 t := sameBut_setBytes
  have hlocate : t.locate (besidePath "a.mrc" "a.mrc") = .ok ["a.mrc.dedup"] := by
    rw [hsame.locate_eq]
    decide
  have hobtain := obtain_of_vacant (by decide) hlocate ((node?_congr hsame.nodes).trans (by decide))
  obtain ⟨hresult, hagain, hnone⟩ := (removeDuplicates_spec ht "a.mrc" hsole).2 hsource hbinary hread
    accepted_threeRecords (by decide) (openWriter_of_obtain (.inl rfl) hobtain) rfl
  refine ⟨?_, hagain, hnone⟩
  rw [hresult, numbers_threeRecords]
  rfl

/-- Not every file of binary records that can be written again is rid of its duplicates: its name can be too
long for another one beside it. -/
theorem removeDuplicates_nameTooLong : ¬∀ (t : FileTree) (path : String) (source : FileReader)
    (rs : List Record), t.WellFormed → t.faults = [] → (∀ id, t.find path = .ok (.file id) → t.Sole id) →
    (t.openReader path none).1 = .ok source → source.format = .binary → (source.readAll t).result = .ok rs →
    (∀ r ∈ rs, (r.fields.filter (·.tag = Tag.controlNumber)).length = 1 ∧
      ((Writer.ofSink BoundedSink.unbounded).write r).result = .ok ()) →
    (t.removeDuplicates path).result = .ok (rs.length - (rs.map Record.number).toFinset.card) := by
  intro h
  obtain ⟨name, hsize, hlong, hslash, hnul⟩ : ∃ name : String, name.utf8ByteSize = 250 ∧ 2 < name.length ∧
      '/' ∉ name.toList ∧ '\x00' ∉ name.toList :=
    ⟨String.ofList (List.replicate 250 'a'), by decide +kernel⟩
  have hfind : (empty.withFile [name]).find name = .ok (.file 0) := by
    refine find_eq_file.2 ⟨?_, [name], ?_, by simp [withFile, node?, empty]⟩
    · have hnotEmpty : name ≠ "" := by
        rintro rfl
        cases hsize
      rw [Path.wantsFolder, Path.components_of_not_mem hslash]
      simpa using hnotEmpty
    · rw [locate_of_not_mem _ hslash hnul hlong (by rw [hsize]; decide), if_neg (by rw [hsize]; decide)]
  obtain ⟨ht, source, hsource, hbinary, hread, _⟩ := reads_threeRecords hfind rfl
  have hresult := h _ name source _ ht rfl (sole_ofRecords hfind rfl threeRecords) hsource hbinary hread
    accepted_threeRecords
  generalize ofRecords name threeRecords = t at hsource hresult
  have hlocate : t.locate (Path.sibling name (name ++ ".dedup")) = .error nameTooLong := by
    have hsize' : (name ++ ".dedup").utf8ByteSize = 256 := by rw [String.utf8ByteSize_append, hsize]; rfl
    rw [Path.sibling_of_not_mem hslash, locate_of_not_mem, if_pos (by rw [hsize']; decide)]
    · simp [hslash]
    · simp [hnul]
    · rw [String.length_append]
      exact Nat.lt_add_right _ hlong
    · rw [hsize']
      decide
  have hname : Path.fileName? name = some name := by
    have hbeside : Path.fileName? (Path.sibling name name) = some name :=
      Path.fileName?_sibling hslash hlong
    rwa [Path.sibling_of_not_mem hslash] at hbeside
  have hopen : t.openWriter (Path.sibling name (name ++ ".dedup")) (some source.format) .overwrite =
      .error (.streamFailed nameTooLong) := by
    simp [openWriter, obtain, hlocate, bind, Except.bind, Except.mapError]
  rcases hopened : t.openReader name none with ⟨opened, notices⟩
  rw [hopened] at hsource
  dsimp only at hsource
  rw [removeDuplicates, hname] at hresult
  simp only [hopened, hsource, hopen] at hresult
  cases hresult

end FileTree

end Marc21
