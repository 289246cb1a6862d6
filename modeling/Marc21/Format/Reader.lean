import Marc21.Iso2709.Reader
import Marc21.Slim.Reader

/-!
Reading records of either format. `walk` visits the records that are left, one after the other.
-/

namespace Marc21

inductive RecordFormat where
  | binary
  | xml
  deriving DecidableEq, Repr

inductive RecordReader where
  | binary (r : Iso2709.Reader)
  | xml (r : Slim.Reader)

/-- Changes the state that an outcome comes with. -/
def Outcome.mapState {σ τ α : Type} (f : σ → τ) (o : Outcome σ α) : Outcome τ α :=
  ⟨o.result, f o.state, o.notices⟩

namespace RecordReader

def format : RecordReader → RecordFormat
  | binary _ => .binary
  | xml _ => .xml

def read : RecordReader → Outcome RecordReader (Option Record)
  | binary r => r.read.mapState binary
  | xml r => r.read.mapState xml

def rewind : RecordReader → Outcome RecordReader Unit
  | binary r => r.rewind.mapState binary
  | xml r => r.rewind.mapState xml

def recordsRead : RecordReader → Nat
  | binary r => r.recordsRead
  | xml r => r.recordsRead

/-- Offsets are for binary streams. -/
def tell? : RecordReader → Option Nat
  | binary r => some r.tell
  | xml _ => none

/-- A bound on the records that are left. -/
def measure : RecordReader → Nat
  | binary r => r.measure
  | xml r => r.measure

theorem read_measure {r s : RecordReader} {record : Record} {notices : List Notice}
    (h : r.read = ⟨.ok (some record), s, notices⟩) : s.measure < r.measure := by
  cases r with
  | binary r =>
    obtain ⟨h1, rfl, h3⟩ := Outcome.mk.inj h
    have hr : r.read = ⟨.ok (some record), r.read.state, notices⟩ := by
      rw [← h1, ← h3]
    exact Iso2709.Reader.read_measure hr
  | xml r =>
    obtain ⟨h1, rfl, h3⟩ := Outcome.mk.inj h
    have hr : r.read = ⟨.ok (some record), r.read.state, notices⟩ := by
      rw [← h1, ← h3]
    exact Slim.Reader.read_measure hr

/-- What a walk over records comes to. -/
structure Walk (β ε : Type) where
  result : Except ε Unit
  reader : RecordReader
  value : β
  notices : List Notice

/-- Reads to the end and hands each record to `visit`, together with the reader as it was before that
record and with a value that `visit` carries on. It ends early at the first error of either. -/
def walk {β ε : Type} (embed : MarcError → ε)
    (visit : β → RecordReader → Record → Except ε Unit × β × List Notice)
    (reader : RecordReader) (value : β) : Walk β ε :=
  match _h : reader.read with
  | ⟨.error e, rest, notices⟩ => ⟨.error (embed e), rest, value, notices⟩
  | ⟨.ok none, rest, notices⟩ => ⟨.ok (), rest, value, notices⟩
  | ⟨.ok (some record), rest, notices⟩ =>
    match visit value reader record with
    | (.error e, value, more) => ⟨.error e, rest, value, notices ++ more⟩
    | (.ok (), value, more) =>
      let later := walk embed visit rest value
      { later with notices := notices ++ more ++ later.notices }
termination_by reader.measure
decreasing_by exact read_measure _h

/-- All records that are left, or the first error. -/
def readAll (r : RecordReader) : Outcome RecordReader (List Record) :=
  let w := r.walk id (fun done _ record => (.ok (), record :: done, [])) []
  ⟨w.result.map fun _ => w.value.reverse, w.reader, w.notices⟩

/-- At most `n` records, where an error stands in the place of a record. It ends where there is no
record. -/
def iterate (r : RecordReader) : Nat → List (Except MarcError Record) × RecordReader × List Notice
  | 0 => ([], r, [])
  | n + 1 =>
    match r.read with
    | ⟨.ok none, rest, notices⟩ => ([], rest, notices)
    | ⟨.ok (some record), rest, notices⟩ =>
      let (items, last, more) := iterate rest n
      (.ok record :: items, last, notices ++ more)
    | ⟨.error e, rest, notices⟩ =>
      let (items, last, more) := iterate rest n
      (.error e :: items, last, notices ++ more)

end RecordReader

end Marc21
