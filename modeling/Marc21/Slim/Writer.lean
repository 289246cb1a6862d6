import Marc21.Stream.Sink
import Marc21.Xml.Mark
import Marc21.Slim.Stage

/-!
Writing records as a MARC-XML document. The collection is opened with the first record or, if there is
none, when the document is finished. A writer that is given up unfinished finishes first.
-/

namespace Marc21.Slim

open Xml (Mark Layout)

def textElement (name : String) (as : Xml.Attributes) (content : String) : List Mark :=
  [.start name as, .text content, .stop name]

def opening : List Mark := [.declaration, .start "collection" [("xmlns", slimNamespace)]]

def fieldMarks (f : Field) : List Mark :=
  if f.isControl then textElement "controlfield" [("tag", f.tag.text)] f.contents
  else
    .start "datafield" [("tag", f.tag.text), ("ind1", (f.indicator1?.getD ' ').toString),
      ("ind2", (f.indicator2?.getD ' ').toString)] ::
    f.subfields.flatMap (fun s => textElement "subfield" [("code", s.code.toString)] s.value) ++
    [.stop "datafield"]

def recordMarks (r : Record) : List Mark :=
  .start "record" [] :: textElement "leader" [] r.leader.text ++ r.fields.flatMap fieldMarks ++
    [.stop "record"]

structure Writer (σ : Type) where
  sink : σ
  layout : Layout
  started : Bool
  finished : Bool
  recordsWritten : Nat

namespace Writer

variable {σ : Type} [ByteSink σ]

def ofSink (sink : σ) : Writer σ := ⟨sink, .compact, false, false, 0⟩

/-- Writes in indented form from here on. It has no effect once the collection is open. -/
def withIndent (w : Writer σ) (spaces : Nat) : Writer σ :=
  if w.started then w else { w with layout := .indented spaces }

/-- Writes marks up to the first that the sink does not take. -/
def put (w : Writer σ) : List Mark → Except MarcError Unit × Writer σ
  | [] => (.ok (), w)
  | m :: rest =>
    let (pieces, layout) := w.layout.write m
    match ByteSink.writeAll w.sink pieces with
    | (.ok (), sink) => put { w with sink, layout } rest
    | (.error failure, sink) => (.error (.streamFailed failure), { w with sink, layout })

def start (w : Writer σ) : Except MarcError Unit × Writer σ :=
  if w.started then (.ok (), w)
  else match w.put opening with
    | (.ok (), w) => (.ok (), { w with started := true })
    | failed => failed

def write (w : Writer σ) (r : Record) : Outcome (Writer σ) Unit :=
  if w.finished then ⟨.error (.invalidRecord .writerFinished), w, []⟩
  else match w.start with
    | (.error e, w) => ⟨.error e, w, []⟩
    | (.ok (), w) =>
      match w.put (recordMarks r) with
      | (.error e, w) => ⟨.error e, w, []⟩
      | (.ok (), w) => ⟨.ok (), { w with recordsWritten := w.recordsWritten + 1 }, []⟩

def flush (w : Writer σ) : Outcome (Writer σ) Unit :=
  match ByteSink.flush w.sink with
  | (.error failure, sink) => ⟨.error (.streamFailed failure), { w with sink }, []⟩
  | (.ok (), sink) => ⟨.ok (), { w with sink }, []⟩

/-- Closes the collection and flushes, once. -/
def finish (w : Writer σ) : Outcome (Writer σ) Unit :=
  if w.finished then ⟨.ok (), w, []⟩
  else match w.start with
    | (.error e, w) => ⟨.error e, w, []⟩
    | (.ok (), w) =>
      match w.put [.stop "collection"] with
      | (.error e, w) => ⟨.error e, w, []⟩
      | (.ok (), w) => ({ w with finished := true } : Writer σ).flush

/-- Gives the writer up. What keeps an open collection from being closed is only reported. -/
def close (w : Writer σ) : σ × List Notice :=
  if w.finished then (w.sink, [])
  else match w.finish with
    | ⟨.ok (), w, notices⟩ => (w.sink, notices)
    | ⟨.error e, w, notices⟩ => (w.sink, notices ++ [.collectionUnclosed e])

/-- Finishes and gives the sink back. A writer that cannot be finished is given up. -/
def release (w : Writer σ) : Outcome σ Unit :=
  match w.finish with
  | ⟨.ok (), w, notices⟩ => ⟨.ok (), w.sink, notices⟩
  | ⟨.error e, w, notices⟩ =>
    let (sink, later) := w.close
    ⟨.error e, sink, notices ++ later⟩

end Writer

end Marc21.Slim
