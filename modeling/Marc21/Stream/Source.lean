import Marc21.Error

/-!
Byte streams to read from. A stream answers each read call with some of the bytes asked for, with an
interruption, or with a failure. `take` repeats the call until it has what it wants or the stream ends.
-/

namespace Marc21

/-- How a stream answers its read calls: the interruptions before its `k`-th delivery, and the most
bytes beyond the first that this delivery gives, if there is a limit. -/
structure Schedule where
  interruptions : Nat → Nat
  most : Nat → Option Nat

/-- Every call is answered at once and in full. -/
def Schedule.prompt : Schedule := ⟨fun _ => 0, fun _ => none⟩

/-- A stream at a position. `block` is how many bytes are fetched at a time, and `ahead` holds those
that were fetched and not taken yet. Reading at or behind `failAt` fails. -/
structure Source where
  content : Array UInt8
  position : Nat
  ahead : Bytes
  block : Nat
  failAt : Option Nat
  readFailure : StreamFailure
  seekFailure : Option StreamFailure
  schedule : Schedule
  deliveries : Nat
  interrupted : Nat

inductive Arrival where
  | bytes (bs : Bytes)
  | interrupted
  | failed (failure : StreamFailure)

namespace Source

/-- A stream of the given bytes that never fails. -/
def ofArray (content : Array UInt8) : Source where
  content := content
  position := 0
  ahead := []
  block := 0
  failAt := none
  readFailure := .reported ""
  seekFailure := none
  schedule := .prompt
  deliveries := 0
  interrupted := 0

def ofBytes (bs : Bytes) : Source := ofArray bs.toArray

/-- Bytes that are still to be taken. -/
def remaining (s : Source) : Nat := s.ahead.length + (s.content.size - s.position)

/-- Offset of the next byte to be taken. -/
def offset (s : Source) : Nat := s.position - s.ahead.length

def interruptionsLeft (s : Source) : Nat := s.schedule.interruptions s.deliveries - s.interrupted

/-- How many of `n` bytes the next delivery may give. -/
def allowance (s : Source) (n : Nat) : Nat :=
  let n := match s.schedule.most s.deliveries with
    | some m => min n (m + 1)
    | none => n
  match s.failAt with
  | some k => min n (k - s.position)
  | none => n

/-- One call for up to `n` bytes on the stream below. -/
def fetch (s : Source) (n : Nat) : Arrival × Source :=
  if s.interrupted < s.schedule.interruptions s.deliveries then
    (.interrupted, { s with interrupted := s.interrupted + 1 })
  else
    let s := { s with deliveries := s.deliveries + 1, interrupted := 0 }
    if s.failAt.any (· ≤ s.position) then (.failed s.readFailure, s)
    else
      let bs := s.content.extract s.position (s.position + s.allowance n)
      (.bytes bs.toList, { s with position := s.position + bs.size })

/-- One call for up to `n` bytes. What was fetched ahead is given first. -/
def read (s : Source) (n : Nat) : Arrival × Source :=
  if s.ahead ≠ [] then (.bytes (s.ahead.take n), { s with ahead := s.ahead.drop n })
  else if s.block ≤ n then s.fetch n
  else match s.fetch s.block with
    | (.bytes bs, s) => (.bytes (bs.take n), { s with ahead := bs.drop n })
    | other => other

theorem fetch_remaining {s t : Source} {n : Nat} {bs : Bytes} (h : s.fetch n = (.bytes bs, t)) :
    t.ahead = s.ahead ∧ bs.length + (t.content.size - t.position) =
      s.content.size - s.position := by
  unfold fetch at h
  split at h
  · simp at h
  · simp only at h
    split at h
    · simp at h
    · obtain ⟨hb, rfl⟩ := Prod.mk.inj h
      obtain rfl := Arrival.bytes.inj hb
      refine ⟨rfl, ?_⟩
      simp only [Array.length_toList, Array.size_extract]
      omega

theorem fetch_interrupted {s t : Source} {n : Nat} (h : s.fetch n = (.interrupted, t)) :
    t.interruptionsLeft < s.interruptionsLeft ∧ t.remaining = s.remaining := by
  unfold fetch at h
  split at h
  · next hlt =>
    obtain ⟨_, rfl⟩ := Prod.mk.inj h
    refine ⟨?_, rfl⟩
    simp only [interruptionsLeft]
    omega
  · simp only at h
    split at h <;> simp at h

/-- A read takes what it gives off what remains. -/
theorem read_remaining {s t : Source} {n : Nat} {bs : Bytes} (h : s.read n = (.bytes bs, t)) :
    bs.length + t.remaining = s.remaining := by
  unfold read at h
  split at h
  · obtain ⟨hb, rfl⟩ := Prod.mk.inj h
    obtain rfl := Arrival.bytes.inj hb
    simp only [remaining, List.length_take, List.length_drop]
    omega
  · next hnil =>
    have hahead : s.ahead = [] := by simpa using hnil
    split at h
    · obtain ⟨ha, hr⟩ := fetch_remaining h
      simp only [remaining, ha, hahead, List.length_nil]
      omega
    · split at h
      · next cs u hf =>
        obtain ⟨hb, rfl⟩ := Prod.mk.inj h
        obtain rfl := Arrival.bytes.inj hb
        obtain ⟨_, hr⟩ := fetch_remaining hf
        simp only [remaining, hahead, List.length_take, List.length_drop, List.length_nil]
        omega
      · next hne => exact absurd h (hne bs t)

theorem read_interrupted {s t : Source} {n : Nat} (h : s.read n = (.interrupted, t)) :
    t.interruptionsLeft < s.interruptionsLeft ∧ t.remaining = s.remaining := by
  unfold read at h
  split at h
  · simp at h
  · split at h
    · exact fetch_interrupted h
    · split at h
      · simp at h
      · exact fetch_interrupted h

/-- Reads until `n` bytes are there or the stream ends. `got` holds what came so far. -/
def takeFrom (s : Source) (n : Nat) (got : Array UInt8) : Except StreamFailure Bytes × Source :=
  if n = 0 then (.ok got.toList, s)
  else match _h : s.read n with
    | (.failed failure, t) => (.error failure, t)
    | (.interrupted, t) => takeFrom t n got
    | (.bytes bs, t) =>
      if bs = [] then (.ok got.toList, t) else takeFrom t (n - bs.length) (got ++ bs)
termination_by (n, s.interruptionsLeft)
decreasing_by
  · exact Prod.Lex.right _ (read_interrupted _h).1
  · apply Prod.Lex.left
    have : 0 < bs.length := List.length_pos_iff.2 (by assumption)
    omega

/-- The next `n` bytes, or all that are left. -/
def take (s : Source) (n : Nat) : Except StreamFailure Bytes × Source := s.takeFrom n #[]

/-- Goes to an offset, which may lie behind the end. -/
def seek (s : Source) (offset : Nat) : Except StreamFailure Source :=
  match s.seekFailure with
  | some failure => .error failure
  | none => .ok { s with position := offset, ahead := [] }

theorem takeFrom_remaining {s t : Source} {n : Nat} {got : Array UInt8} {bs : Bytes}
    (h : s.takeFrom n got = (.ok bs, t)) :
    bs.length + t.remaining = got.size + s.remaining := by
  fun_induction takeFrom s n got with
  | case1 s got =>
    obtain ⟨hb, rfl⟩ := Prod.mk.inj h
    obtain rfl := Except.ok.inj hb
    simp
  | case2 => simp at h
  | case3 s n got hn u hr ih => rw [ih h, (read_interrupted hr).2]
  | case4 s n got hn u hr =>
    obtain ⟨hb, rfl⟩ := Prod.mk.inj h
    obtain rfl := Except.ok.inj hb
    have := read_remaining hr
    simp only [List.length_nil] at this
    simp
    omega
  | case5 s n got hn cs u hr hcs ih =>
    have := read_remaining hr
    have hs := ih h
    have hsize : (got ++ cs).size = got.size + cs.length := by
      rw [← Array.length_toList, Array.toList_appendList, List.length_append, Array.length_toList]
    omega

theorem take_remaining {s t : Source} {n : Nat} {bs : Bytes} (h : s.take n = (.ok bs, t)) :
    bs.length + t.remaining = s.remaining := by
  have := takeFrom_remaining h
  simpa using this

end Source

end Marc21
