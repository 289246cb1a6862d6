import Marc21.Error

/-!
Byte sinks to write to. A sink takes in bytes or fails, and it may hold some of them back until it is
flushed. A bounded sink keeps everything in memory and fails where it is told to.
-/

namespace Marc21

class ByteSink (σ : Type) where
  write : σ → Bytes → Except StreamFailure Unit × σ
  flush : σ → Except StreamFailure Unit × σ

namespace ByteSink

variable {σ : Type} [ByteSink σ]

/-- Writes one piece after the other, up to the first that fails. -/
def writeAll (s : σ) : List Bytes → Except StreamFailure Unit × σ
  | [] => (.ok (), s)
  | bs :: rest =>
    match write s bs with
    | (.ok (), s) => writeAll s rest
    | (.error failure, s) => (.error failure, s)

end ByteSink

/-- A sink in memory. A write that goes beyond the capacity is taken in as far as there is room. -/
structure BoundedSink where
  accepted : Array UInt8
  capacity : Option Nat
  writeFailure : StreamFailure
  flushFailure : Option StreamFailure
  deriving Repr

namespace BoundedSink

def unbounded : BoundedSink := ⟨#[], none, .reported "", none⟩

def write (s : BoundedSink) (bs : Bytes) : Except StreamFailure Unit × BoundedSink :=
  match s with
  | ⟨accepted, capacity, writeFailure, flushFailure⟩ =>
    match capacity with
    | none => (.ok (), ⟨accepted ++ bs, capacity, writeFailure, flushFailure⟩)
    | some limit =>
      let room := limit - accepted.size
      (if bs.length ≤ room then .ok () else .error writeFailure,
        ⟨accepted ++ bs.take room, capacity, writeFailure, flushFailure⟩)

def flush (s : BoundedSink) : Except StreamFailure Unit × BoundedSink :=
  match s.flushFailure with
  | some failure => (.error failure, s)
  | none => (.ok (), s)

instance : ByteSink BoundedSink := ⟨write, flush⟩

end BoundedSink

end Marc21
