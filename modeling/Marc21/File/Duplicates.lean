import Marc21.File.Reader
import Marc21.File.Writer

/-!
Removing the records of a file whose control number an earlier record has. The records that stay are
written to a second file beside the first, and only when that is complete does it take the first one's
place. So a failure leaves the first file as it was, and the second one with what was written.
-/

namespace Marc21

/-- What has been done so far: the output, the control numbers seen, and how many records were left
out. -/
structure Sifting where
  writer : RecordWriter FileSink
  seen : List String
  dropped : Nat

/-- Writes a record unless one with its control number was seen. -/
def Sifting.step (s : Sifting) (record : Record) : Except MarcError Unit × Sifting × List Notice :=
  let number := record.controlNumber?.getD ""
  if s.seen.contains number then (.ok (), { s with dropped := s.dropped + 1 }, [])
  else
    let o := s.writer.write record
    (o.result, { s with writer := o.state, seen := number :: s.seen }, o.notices)

namespace FileTree

/-- Writes what stays of the records to a file that was opened for them, and says how many do not. -/
def sift (t : FileTree) (source : FileReader) (target : FileWriter) : Outcome FileTree Nat :=
  let w := (source.current t).walk id (fun s _ record => s.step record)
    (⟨target.attached t, [], 0⟩ : Sifting)
  let finished : Outcome (RecordWriter FileSink) Unit := match w.result with
    | .error e => ⟨.error e, w.value.writer, []⟩
    | .ok () => w.value.writer.finish
  let (sink, later) := finished.state.close
  ⟨finished.result.map fun _ => w.value.dropped, sink.drain.2.tree,
    w.notices ++ finished.notices ++ later⟩

/-- Keeps the first record for each control number, and says how many others there were. -/
def removeDuplicates (t : FileTree) (path : String) : Outcome FileTree Nat :=
  match Path.fileName? path with
  | none => ⟨.error (.unsupportedFileType (.notAFile path)), t, []⟩
  | some name =>
    let beside := Path.sibling path (name ++ ".dedup")
    match t.openReader path none with
    | (.error e, notices) => ⟨.error e, t, notices⟩
    | (.ok source, notices) =>
      match t.openWriter beside (some source.format) .overwrite with
      | .error e => ⟨.error e, t, notices⟩
      | .ok (target, t) =>
        match t.sift source target with
        | ⟨.error e, t, more⟩ => ⟨.error e, t, notices ++ more⟩
        | ⟨.ok dropped, t, more⟩ =>
          match t.moveFile beside path with
          | .error failure => ⟨.error (.streamFailed failure), t, notices ++ more⟩
          | .ok t => ⟨.ok dropped, t, notices ++ more ++ [.duplicatesRemoved path dropped]⟩

end FileTree

end Marc21
