import Marc21.Proofs.Iso2709.Calls
import Marc21.Proofs.Iso2709.Position
import Marc21.Proofs.Slim.Errors

/-!
Going back to the start. Whatever was done with a reader before, a rewind leaves it where a new reader of the same
input stands, and so the two go on alike (`Mirrors.after`). They differ in one thing: a reader of binary records
goes on counting where it was, while one of MARC-XML counts anew (`rewind_reset`).
-/

namespace Marc21

theorem Slim.Reader.rewind_ok {x : Slim.Reader} (h : x.stream.isSome) (hseek : x.input.seekFailure = none) :
    x.rewind = ⟨.ok (), .ofInput x.input, []⟩ := by
  obtain ⟨stream, hstream⟩ := Option.isSome_iff_exists.1 h
  rw [rewind, hstream, hseek]

namespace RecordReader

open Iso2709 (titled storable_titled)
open Iso2709.Reader (encodeAll read_encodeAll read_recordsRead)

/-- The reader after some calls. -/
def after (r : RecordReader) : Nat → RecordReader
  | 0 => r
  | k + 1 => r.read.state.after k

/-- A new reader of an input on which going back does not fail, nor, for a binary stream, reading. -/
inductive New : RecordReader → Prop where
  | binary {source : Source} (steady : source.Steady) (seekable : source.seekFailure = none)
      (start : source.upcoming = source.content.toList) : New (binary (.ofSource source))
  | xml {input : Slim.Input} (seekable : input.seekFailure = none) : New (xml (.ofInput input))

/-- A reader after any calls, whatever they came to. -/
inductive Reached (start : RecordReader) : RecordReader → Prop where
  | start : Reached start start
  | read {r : RecordReader} (h : Reached start r) : Reached start r.read.state
  | seek {r : Iso2709.Reader} (h : Reached start (binary r)) (offset : Nat) :
      Reached start (binary (r.seek offset).state)
  | rewind {r : RecordReader} (h : Reached start r) : Reached start r.rewind.state

/-- How many records a rewind leaves counted. -/
def carried : RecordReader → Nat
  | binary r => r.recordsRead
  | xml _ => 0

/-! ## Before the rewind -/

section

variable {r : RecordReader}

/-- Whatever the calls come to, the stream stays the same. -/
theorem Reached.onStream {source : Source} (hsteady : source.Steady)
    (hseek : source.seekFailure = none) (h : Reached (binary (.ofSource source)) r) :
    ∃ b, r = binary b ∧ Iso2709.Reader.OnStream source.content.toList b := by
  induction h with
  | start => exact ⟨_, rfl, rfl, hsteady, hseek⟩
  | read _ ih =>
    obtain ⟨b, rfl, hb⟩ := ih
    exact ⟨_, rfl, hb.read⟩
  | seek _ offset ih =>
    obtain ⟨b, heq, hb⟩ := ih
    cases heq
    exact ⟨_, rfl, (hb.seek offset).2.1.toOnStream⟩
  | rewind _ ih =>
    obtain ⟨b, rfl, hb⟩ := ih
    exact ⟨_, rfl, (hb.seek 0).2.1.toOnStream⟩

theorem Reached.onInput {input : Slim.Input} (hseek : input.seekFailure = none)
    (h : Reached (xml (.ofInput input)) r) : ∃ x, r = xml x ∧ x.input = input ∧ x.stream.isSome := by
  induction h with
  | start => exact ⟨_, rfl, rfl, rfl⟩
  | read _ ih =>
    obtain ⟨x, rfl, rfl, hx⟩ := ih
    obtain ⟨hinput, hstream, _⟩ := Slim.Reader.read_spec hx
    exact ⟨_, rfl, hinput, hstream⟩
  | seek _ _ ih =>
    obtain ⟨x, heq, _⟩ := ih
    cases heq
  | rewind _ ih =>
    obtain ⟨x, rfl, rfl, hx⟩ := ih
    rw [RecordReader.rewind, Slim.Reader.rewind_ok hx hseek]
    exact ⟨_, rfl, rfl, rfl⟩

end

/-! ## Behind the rewind -/

/-- Two readers that go on alike. The first has counted `n` records more. -/
inductive Mirrors (n : Nat) : RecordReader → RecordReader → Prop where
  | binary {r s : Iso2709.Reader} (alike : r.Alike s) (count : r.recordsRead = n + s.recordsRead) :
      Mirrors n (binary r) (binary s)
  | xml (r : Slim.Reader) (count : n = 0) : Mirrors n (xml r) (xml r)

namespace Mirrors

variable {n : Nat} {r s : RecordReader}

theorem read (h : Mirrors n r s) : r.read.result = s.read.result ∧ Mirrors n r.read.state s.read.state := by
  cases h with
  | binary alike count =>
    refine ⟨alike.read.1, .binary alike.read.2 ?_⟩
    rw [Iso2709.Reader.read_recordsRead, Iso2709.Reader.read_recordsRead, alike.read.1, count, Nat.add_assoc]
  | xml r count => exact ⟨rfl, .xml _ count⟩

theorem after (h : Mirrors n r s) (k : Nat) : Mirrors n (r.after k) (s.after k) := by
  induction k generalizing r s with
  | zero => exact h
  | succ k ih => exact ih h.read.2

theorem tell_eq (h : Mirrors n r s) : r.tell? = s.tell? := by
  cases h with
  | binary alike => exact congrArg some alike.tell_eq
  | xml => rfl

theorem recordsRead_eq (h : Mirrors n r s) : r.recordsRead = n + s.recordsRead := by
  cases h with
  | binary _ count => exact count
  | xml r count => rw [count, Nat.zero_add]

end Mirrors

theorem rewind_mirrors {start r : RecordReader} (hnew : New start) (h : Reached start r) :
    r.rewind.result = .ok () ∧ Mirrors r.carried r.rewind.state start := by
  cases hnew with
  | @binary source hsteady hseek hstart =>
    obtain ⟨b, rfl, hb⟩ := h.onStream hsteady hseek
    obtain ⟨hok, hsettled, hposition, hgrouping⟩ := hb.seek 0
    -- Going to an offset forgets what is held back and sets the position. It leaves the count alone.
    have hcount : (b.seek 0).state.recordsRead = b.recordsRead := by
      unfold Iso2709.Reader.seek
      split <;> rfl
    refine ⟨hok, .binary ⟨hsettled.steady, hsteady, ?_, hposition, hgrouping⟩ hcount⟩
    exact (hsettled.upcoming_eq.trans (by rw [hposition, List.drop_zero])).trans hstart.symm
  | @xml input hseek =>
    obtain ⟨x, rfl, rfl, hx⟩ := h.onInput hseek
    rw [rewind, Slim.Reader.rewind_ok hx hseek]
    exact ⟨rfl, .xml _ rfl⟩

/-! ## Main result -/

/-- **A rewind is a reset, but for the count of a binary reader.** Whatever calls came before it and whatever they
gave, a rewind goes well. All calls of `read` after it give what those of a new reader of the same input give, and
the reader tells the same places on the way. It counts the same records if it reads MARC-XML or has counted none
before the rewind, and otherwise goes on counting from there. -/
theorem rewind_reset {start r : RecordReader} (hnew : New start) (h : Reached start r) :
    let back := r.rewind.state
    r.rewind.result = .ok () ∧
    (∀ k, (back.after k).read.result = (start.after k).read.result ∧
      (back.after k).tell? = (start.after k).tell? ∧
      (back.after k).recordsRead = r.carried + (start.after k).recordsRead) ∧
    ((∀ k, (back.after k).recordsRead = (start.after k).recordsRead) ↔
      r.format = .xml ∨ r.recordsRead = 0) := by
  intro back
  obtain ⟨hok, hmirrors⟩ := rewind_mirrors hnew h
  have hcount (k : Nat) : (back.after k).recordsRead = r.carried + (start.after k).recordsRead :=
    (hmirrors.after k).recordsRead_eq
  refine ⟨hok, fun k => ⟨(hmirrors.after k).read.1, (hmirrors.after k).tell_eq, hcount k⟩, ?_⟩
  have hcarried : r.carried = 0 ↔ r.format = .xml ∨ r.recordsRead = 0 := by
    cases r with
    | binary b => simp [carried, format, recordsRead]
    | xml x => simp [carried, format]
  rw [← hcarried]
  constructor
  · intro hsame
    have hzero := (hcount 0).symm.trans (hsame 0)
    omega
  · intro hzero k
    rw [hcount, hzero, Nat.zero_add]

theorem new_ofBytes (bs : Bytes) : New (binary (.ofSource (.ofBytes bs))) := by
  refine .binary (Source.steady_ofBytes bs) rfl ?_
  rw [Source.upcoming_ofBytes]
  rfl

/-- A binary reader that went into the middle of a record, and a reader of MARC-XML that met an error. -/
theorem rewind_reset_inside :
    let b := Iso2709.Reader.ofSource (.ofBytes (encodeAll [titled "1" "10\x1FaA", titled "2" "  \x1FaB"]))
    let inside := (b.read.state.seek 7).state.read.state
    let x := Slim.Reader.ofInput (.ofBytes (Utf8.encode "<collection><leader/>"))
    ∀ k, ((binary inside).rewind.state.after k).read.result = ((binary b).after k).read.result ∧
      ((xml x.read.state).rewind.state.after k).recordsRead = ((xml x).after k).recordsRead := by
  intro b inside x k
  have hinside : Reached (binary b) (binary inside) := .read (.seek (.read .start) 7)
  have hfailed : Reached (xml x) (xml x.read.state) := .read .start
  obtain ⟨_, hbinary, _⟩ := rewind_reset (new_ofBytes _) hinside
  obtain ⟨_, _, hxml⟩ := rewind_reset (.xml rfl) hfailed
  exact ⟨(hbinary k).1, hxml.2 (.inl rfl) k⟩

/-- One record was read, and the reader still counts it at the start of the stream. -/
theorem rewind_count_titled :
    let start := binary (.ofSource (.ofBytes (encodeAll [titled "1" "10\x1FaA"])))
    New start ∧ Reached start start.read.state ∧ start.read.state.rewind.result = .ok () ∧
      start.read.state.rewind.state.recordsRead = 1 ∧ start.recordsRead = 0 := by
  intro start
  have hnew : New start := new_ofBytes _
  have hreached : Reached start start.read.state := .read .start
  obtain ⟨record, hread⟩ := read_encodeAll (List.forall_mem_singleton.2 (storable_titled (by decide)) :
    ∀ r ∈ [titled "1" "10\x1FaA"], r.Storable)
  obtain ⟨hok, hmirrors⟩ := rewind_mirrors hnew hreached
  refine ⟨hnew, hreached, hok, ?_, rfl⟩
  rw [hmirrors.recordsRead_eq]
  exact (read_recordsRead _).trans (by rw [hread]; rfl)

end RecordReader

end Marc21
