import Marc21.Iso2709.Writer
import Marc21.Slim.Writer
import Marc21.Format.Reader

/-!
Writing records in either format, and copying records from a reader to a writer.
-/

namespace Marc21

inductive RecordWriter (σ : Type) where
  | binary (w : Iso2709.Writer σ)
  | xml (w : Slim.Writer σ)

namespace RecordWriter

variable {σ : Type}

def format : RecordWriter σ → RecordFormat
  | binary _ => .binary
  | xml _ => .xml

def sink : RecordWriter σ → σ
  | binary w => w.sink
  | xml w => w.sink

def recordsWritten : RecordWriter σ → Nat
  | binary w => w.recordsWritten
  | xml w => w.recordsWritten

/-- The same writer over another sink. -/
def withSink {τ : Type} (w : RecordWriter σ) (sink : τ) : RecordWriter τ :=
  match w with
  | binary w => binary { w with sink }
  | xml w => xml { w with sink }

variable [ByteSink σ]

def ofFormat (f : RecordFormat) (sink : σ) (indent : Option Nat) : RecordWriter σ :=
  match f, indent with
  | .binary, _ => binary (.ofSink sink)
  | .xml, none => xml (.ofSink sink)
  | .xml, some spaces => xml ((Slim.Writer.ofSink sink).withIndent spaces)

def write (w : RecordWriter σ) (r : Record) : Outcome (RecordWriter σ) Unit :=
  match w with
  | binary w => (w.write r).mapState binary
  | xml w => (w.write r).mapState xml

/-- Writes records up to the first that is refused or fails. -/
def writeBatch (w : RecordWriter σ) : List Record → Outcome (RecordWriter σ) Unit
  | [] => ⟨.ok (), w, []⟩
  | r :: rest =>
    match w.write r with
    | ⟨.ok (), w, notices⟩ =>
      let later := writeBatch w rest
      { later with notices := notices ++ later.notices }
    | failed => failed

def flush (w : RecordWriter σ) : Outcome (RecordWriter σ) Unit :=
  match w with
  | binary w => w.flush.mapState binary
  | xml w => w.flush.mapState xml

def finish (w : RecordWriter σ) : Outcome (RecordWriter σ) Unit :=
  match w with
  | binary w => w.finish.mapState binary
  | xml w => w.finish.mapState xml

/-- Gives the writer up. An open collection is closed first. -/
def close (w : RecordWriter σ) : σ × List Notice :=
  match w with
  | binary w => (w.sink, [])
  | xml w => w.close

/-- Writes everything that a reader has left, and finishes. -/
def copy (r : RecordReader) (w : RecordWriter σ) :
    Outcome (RecordReader × RecordWriter σ) Unit :=
  let walked := r.walk id (fun w _ record =>
    let o := w.write record
    (o.result, o.state, o.notices)) w
  match walked.result with
  | .error e => ⟨.error e, (walked.reader, walked.value), walked.notices⟩
  | .ok () =>
    let o := walked.value.finish
    ⟨o.result, (walked.reader, o.state), walked.notices ++ o.notices⟩

end RecordWriter

end Marc21
