import Marc21.Stream.Sink
import Marc21.Iso2709.Split
import Marc21.Record.Validity

/-!
Writing records in binary form. A record is checked before any of it is written, and a writer that was
finished takes no more.
-/

namespace Marc21.Iso2709

structure Writer (σ : Type) where
  sink : σ
  recordsWritten : Nat
  finished : Bool

namespace Writer

variable {σ : Type} [ByteSink σ]

def ofSink (sink : σ) : Writer σ := ⟨sink, 0, false⟩

/-- The physical records of a record that is fit to be written. -/
def encoded (r : Record) : Except MarcError (List Bytes) :=
  match r.flaw? with
  | some flaw => .error (.invalidRecord (.flawed flaw (r.controlNumber?.getD "")))
  | none => split r

def write (w : Writer σ) (r : Record) : Outcome (Writer σ) Unit :=
  if w.finished then ⟨.error (.invalidRecord .writerFinished), w, []⟩
  else match encoded r with
    | .error e => ⟨.error e, w, r.validityNotices⟩
    | .ok parts =>
      match ByteSink.writeAll w.sink parts with
      | (.error failure, sink) =>
        ⟨.error (.streamFailed failure), { w with sink }, r.validityNotices⟩
      | (.ok (), sink) =>
        let splitNotices := if parts.length ≤ 1 then []
          else [.recordSplit (r.controlNumber?.getD "") parts.length]
        ⟨.ok (), { w with sink, recordsWritten := w.recordsWritten + 1 },
          r.validityNotices ++ splitNotices⟩

def flush (w : Writer σ) : Outcome (Writer σ) Unit :=
  match ByteSink.flush w.sink with
  | (.error failure, sink) => ⟨.error (.streamFailed failure), { w with sink }, []⟩
  | (.ok (), sink) => ⟨.ok (), { w with sink }, []⟩

/-- Flushes, and if that succeeds refuses further records. -/
def finish (w : Writer σ) : Outcome (Writer σ) Unit :=
  match w.flush with
  | ⟨.ok (), w, notices⟩ => ⟨.ok (), { w with finished := true }, notices⟩
  | failed => failed

end Writer

end Marc21.Iso2709
