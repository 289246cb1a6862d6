import Marc21.File.Guess
import Marc21.Format.Writer

/-!
Writing records to a file. Bytes are held back until there is a block of them or the writer is flushed, and
for longer if letting them through fails. Several writers can have one file open. One that appends writes at the
end of the file as it is then, any other one where its own last write ended.
-/

namespace Marc21

inductive WriteMode where
  | overwrite
  | append
  deriving DecidableEq, Repr

/-- How much an open file holds back. -/
def bufferCapacity : Nat := 8192

/-- An open file. `cursor` is where the next bytes go, if that is not the end. -/
structure FileOutput where
  file : FileId
  cursor : Option Nat
  buffer : Array UInt8
  deriving DecidableEq, Repr

/-- An open file together with the tree it belongs to. -/
structure FileSink where
  tree : FileTree
  output : FileOutput
  deriving DecidableEq, Repr

namespace FileSink

/-- Puts bytes into the file. -/
def place (s : FileSink) (bs : Bytes) : FileSink :=
  match s.output.cursor with
  | none => { s with tree := s.tree.append s.output.file bs }
  | some offset =>
    ⟨s.tree.writeAt s.output.file offset bs,
      { s.output with cursor := some (offset + bs.length) }⟩

/-- What came of letting bytes through to a file, and those of them that did not get there. -/
structure Delivery where
  result : Except StreamFailure Unit
  left : Bytes
  sink : FileSink

/-- Lets bytes through to the file, as far as the next write goes. -/
def deliver (s : FileSink) (bs : Bytes) : Delivery :=
  let (count, result) := s.tree.nextWrite bs.length
  ⟨result, bs.drop count, { s with tree := s.tree.pastWrite }.place (bs.take count)⟩

/-- Lets through what is held back. What does not get to the file is held back still. -/
def drain (s : FileSink) : Except StreamFailure Unit × FileSink :=
  if s.output.buffer = #[] then (.ok (), s)
  else
    let d := s.deliver s.output.buffer.toList
    (d.result, { d.sink with output := { d.sink.output with buffer := d.left.toArray } })

def hold (s : FileSink) (bs : Bytes) : FileSink :=
  match s with
  | ⟨tree, ⟨file, cursor, buffer⟩⟩ => ⟨tree, ⟨file, cursor, buffer ++ bs⟩⟩

/-- Holds bytes back if there is room, and otherwise makes room first. What is as long as the whole
buffer does not go through it. -/
def write (s : FileSink) (bs : Bytes) : Except StreamFailure Unit × FileSink :=
  let room := bufferCapacity - s.output.buffer.size
  if bs.length < room then (.ok (), s.hold bs)
  else
    match if room < bs.length then s.drain else (.ok (), s) with
    | (.error failure, s) => (.error failure, s)
    | (.ok (), s) =>
      if bufferCapacity ≤ bs.length then
        let d := s.deliver bs
        (d.result, d.sink)
      else (.ok (), s.hold bs)

/-- Goes to the end of the file as it is once nothing is held back. -/
def seekEnd (s : FileSink) : Except StreamFailure Unit × FileSink :=
  match s.drain with
  | (.error failure, s) => (.error failure, s)
  | (.ok (), s) =>
    let cursor := s.output.cursor.map fun _ => (s.tree.bytes s.output.file).size
    (.ok (), { s with output := { s.output with cursor } })

instance : ByteSink FileSink := ⟨write, drain⟩

end FileSink

/-- The spaces by which a level of a document in a file is indented. -/
def fileIndent : Nat := 2

structure FileWriter where
  path : String
  records : RecordWriter FileOutput

namespace FileWriter

def format (w : FileWriter) : RecordFormat := w.records.format

def recordsWritten (w : FileWriter) : Nat := w.records.recordsWritten

/-- The writer with the tree that its file belongs to. -/
def attached (w : FileWriter) (t : FileTree) : RecordWriter FileSink :=
  w.records.withSink ⟨t, w.records.sink⟩

def detached (path : String) (r : RecordWriter FileSink) : FileWriter × FileTree :=
  (⟨path, r.withSink r.sink.output⟩, r.sink.tree)

def write (w : FileWriter) (t : FileTree) (r : Record) : Outcome (FileWriter × FileTree) Unit :=
  ((w.attached t).write r).mapState (detached w.path)

def writeBatch (w : FileWriter) (t : FileTree) (rs : List Record) :
    Outcome (FileWriter × FileTree) Unit :=
  ((w.attached t).writeBatch rs).mapState (detached w.path)

def flush (w : FileWriter) (t : FileTree) : Outcome (FileWriter × FileTree) Unit :=
  (w.attached t).flush.mapState (detached w.path)

def finish (w : FileWriter) (t : FileTree) : Outcome (FileWriter × FileTree) Unit :=
  (w.attached t).finish.mapState (detached w.path)

/-- Adds a record at the end of a file that others write to as well. Nothing of it is held back, so a
writer that is used in no other way never writes over what another one wrote. -/
def lockedWrite (w : FileWriter) (t : FileTree) (r : Record) :
    Outcome (FileWriter × FileTree) Unit :=
  match w.records with
  | .xml _ => ⟨.error (.unsupportedFileType (.xmlLockedWrite w.path)), (w, t), []⟩
  | .binary _ =>
    let a := w.attached t
    match a.sink.seekEnd with
    | (.error failure, sink) => ⟨.error (.streamFailed failure), detached w.path (a.withSink sink), []⟩
    | (.ok (), sink) =>
      match (a.withSink sink).write r with
      | ⟨.error e, a, notices⟩ => ⟨.error e, detached w.path a, notices⟩
      | ⟨.ok (), a, notices⟩ =>
        let o := a.flush
        ⟨o.result, detached w.path o.state, notices ++ o.notices⟩

/-- Gives the writer up. What it holds back goes to the file, as far as that does not fail. -/
def close (w : FileWriter) (t : FileTree) : FileTree × List Notice :=
  let (sink, notices) := (w.attached t).close
  (sink.drain.2.tree, notices)

end FileWriter

namespace FileTree

/-- Opens a file to write. Where no format is given the name tells it. -/
def openWriter (t : FileTree) (path : String) (format : Option RecordFormat) (mode : WriteMode) :
    Except MarcError (FileWriter × FileTree) := do
  let f ← match format with
    | some f => .ok f
    | none => formatByName path
  if f = .xml ∧ mode = .append then throw (.unsupportedFileType (.xmlAppend path))
  let (id, t) ← (t.obtain path).mapError MarcError.streamFailed
  let t := if mode = .overwrite then t.setBytes id #[] else t
  let output : FileOutput := ⟨id, if mode = .append then none else some 0, #[]⟩
  return FileWriter.detached path (RecordWriter.ofFormat f (⟨t, output⟩ : FileSink) (some fileIndent))

end FileTree

end Marc21
