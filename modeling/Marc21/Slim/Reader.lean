import Marc21.Xml.EventStream
import Marc21.Slim.Stage

/-!
Reading records from a MARC-XML document, one at a time. After an error, or behind the last record, the
reader gives nothing more until it is rewound.
-/

namespace Marc21.Slim

open Xml (EventStream)

/-- Where a reader stands between records. -/
inductive Place where
  | start
  | inCollection
  | finished
  deriving DecidableEq, Repr

/-- A document to read: its bytes and how much of them can be seen at a time, why they break off if they
do, and whether going back fails. -/
structure Input where
  bytes : Bytes
  supply : Supply
  broken : Option String
  seekFailure : Option StreamFailure
  deriving DecidableEq, Repr

/-- A document that can be seen as a whole. -/
def Input.ofBytes (bs : Bytes) : Input := ⟨bs, .window bs.length, none, none⟩

/-- A rewind that fails leaves the reader without a stream. -/
structure Reader where
  input : Input
  stream : Option EventStream
  place : Place
  recordsRead : Nat
  deriving DecidableEq, Repr

/-- Takes events until they make a record, or nothing at the end of the collection. The record comes
with a mark that it is the whole document. -/
def readEvents (stream : EventStream) (stage : Stage) :
    Outcome EventStream (Option (Record × Bool)) :=
  match _h : stream.next with
  | (.error e, rest) => ⟨.error e, rest, []⟩
  | (.ok event, rest) =>
    match _hs : stage.step rest.line event with
    | .failed e => ⟨.error e, rest, []⟩
    | .closed => ⟨.ok none, rest, []⟩
    | .record r lone => ⟨.ok (some (r, lone)), rest, []⟩
    | .goOn next notices =>
      let later := readEvents rest next
      ⟨later.result, later.state, notices ++ later.notices⟩
termination_by stream.weight
decreasing_by
  exact EventStream.next_weight _h
    (by rintro rfl; exact Stage.step_endOfDocument stage rest.line next notices _hs)

theorem readEvents_weight {stream rest : EventStream} {stage : Stage} {r : Record}
    {notices : List Notice}
    (h : readEvents stream stage = ⟨.ok (some (r, false)), rest, notices⟩) :
    rest.weight < stream.weight := by
  fun_induction readEvents stream stage generalizing notices with
  | case1 => cases h
  | case2 => cases h
  | case3 => cases h
  | case4 stream stage event t hn r' lone hs =>
    cases h
    exact EventStream.next_weight hn
      (by rintro rfl; cases Stage.step_endOfDocument_record hs)
  | case5 =>
    rename_i stream stage event t hn next more hs later ih
    obtain ⟨h1, h2, _⟩ := Outcome.mk.inj h
    have hlt := EventStream.next_weight hn
      (by rintro rfl; exact Stage.step_endOfDocument stage t.line next more hs)
    have hlater : later = ⟨.ok (some (r, false)), rest, later.notices⟩ := by
      rw [← h1, ← h2]
    exact Nat.lt_trans (ih hlater) hlt

namespace Reader

def ofInput (input : Input) : Reader :=
  ⟨input, some (EventStream.ofBytes input.bytes input.supply input.broken), .start, 0⟩

def readFrom (r : Reader) (stream : EventStream) (stage : Stage) :
    Outcome Reader (Option Record) :=
  match readEvents stream stage with
  | ⟨.error e, stream, notices⟩ =>
    ⟨.error e, { r with stream := some stream, place := .finished }, notices⟩
  | ⟨.ok none, stream, notices⟩ =>
    ⟨.ok none, { r with stream := some stream, place := .finished }, notices⟩
  | ⟨.ok (some (record, lone)), stream, notices⟩ =>
    ⟨.ok (some record),
      { r with
        stream := some stream
        place := if lone then .finished else .inCollection
        recordsRead := r.recordsRead + 1 }, notices⟩

/-- Reads the next record, or nothing behind the last. -/
def read (r : Reader) : Outcome Reader (Option Record) :=
  match r.stream with
  | none => ⟨.error (.streamFailed .inputLost), { r with place := .finished }, []⟩
  | some stream =>
    match r.place with
    | .start => r.readFrom stream .root
    | .inCollection => r.readFrom stream .member
    | .finished => ⟨.ok none, r, []⟩

/-- A bound on the records that are left. -/
def measure (r : Reader) : Nat :=
  match r.place, r.stream with
  | .finished, _ => 0
  | _, some stream => stream.weight + 1
  | _, none => 0

theorem readFrom_measure {r s : Reader} {stream : EventStream} {stage : Stage} {record : Record}
    {notices : List Notice} (h : r.readFrom stream stage = ⟨.ok (some record), s, notices⟩) :
    s.measure < stream.weight + 1 := by
  unfold readFrom at h
  split at h
  · cases h
  · cases h
  · next record' lone rest _ he =>
    cases h
    cases lone with
    | true => exact Nat.succ_pos _
    | false => exact Nat.succ_lt_succ (readEvents_weight he)

theorem read_measure {r s : Reader} {record : Record} {notices : List Notice}
    (h : r.read = ⟨.ok (some record), s, notices⟩) : s.measure < r.measure := by
  unfold read at h
  split at h
  · cases h
  · next stream hs =>
    split at h
    · next hp =>
      have := readFrom_measure h
      simpa only [measure, hp, hs] using this
    · next hp =>
      have := readFrom_measure h
      simpa only [measure, hp, hs] using this
    · cases h

/-- How many bytes of the document have not been read yet. -/
def unread (r : Reader) : Nat := (r.stream.map fun s => s.scanner.rest.length).getD 0

/-- The reader of a document that has become another one, of which `rest` is what comes next. -/
def withContent (r : Reader) (bytes rest : Bytes) (supply : Supply) : Reader :=
  { r with
    input := { r.input with bytes }
    stream := r.stream.map fun s => { s with scanner := { s.scanner with rest, supply } } }

/-- Goes back to the start of the document. -/
def rewind (r : Reader) : Outcome Reader Unit :=
  match r.stream, r.input.seekFailure with
  | none, _ => ⟨.error (.streamFailed .noInput), r, []⟩
  | some _, some failure => ⟨.error (.streamFailed failure), { r with stream := none }, []⟩
  | some _, none => ⟨.ok (), ofInput r.input, []⟩

end Reader

end Marc21.Slim
