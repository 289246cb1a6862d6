import Marc21.Stream.Sink

/-!
Sinks that do not fail. `Reliable` says what a sink is in which nothing gets lost: every call on it
succeeds, and the bytes that were handed over are known, whether they were flushed or not. `Lasting` is for
what a sink keeps even when a call fails.
-/

namespace Marc21

/-- From a sound state on, a sink takes in everything that is written to it, in order. -/
structure Reliable (σ : Type) [ByteSink σ] where
  sound : σ → Prop
  taken : σ → Bytes
  write_spec : ∀ {s : σ} (bs : Bytes), sound s →
    ∃ t, ByteSink.write s bs = (.ok (), t) ∧ sound t ∧ taken t = taken s ++ bs
  flush_spec : ∀ {s : σ}, sound s →
    ∃ t, ByteSink.flush s = (.ok (), t) ∧ sound t ∧ taken t = taken s

namespace Reliable

variable {σ : Type} [ByteSink σ]

theorem writeAll_spec (k : Reliable σ) {s : σ} (pieces : List Bytes) (hs : k.sound s) :
    ∃ t, ByteSink.writeAll s pieces = (.ok (), t) ∧ k.sound t ∧
      k.taken t = k.taken s ++ pieces.flatten := by
  induction pieces generalizing s with
  | nil => exact ⟨s, rfl, hs, by simp⟩
  | cons bs pieces ih =>
    obtain ⟨t, hwrite, ht, htaken⟩ := k.write_spec bs hs
    obtain ⟨u, hall, hu, hutaken⟩ := ih ht
    refine ⟨u, ?_, hu, ?_⟩
    · rw [ByteSink.writeAll, hwrite]
      exact hall
    · rw [hutaken, htaken, List.flatten_cons, List.append_assoc]

end Reliable

/-- A property of a sink that no call on the sink ends, whether it succeeds or fails. -/
structure Lasting {σ : Type} [ByteSink σ] (p : σ → Prop) : Prop where
  write : ∀ {s : σ} (bs : Bytes), p s → p (ByteSink.write s bs).2
  flush : ∀ {s : σ}, p s → p (ByteSink.flush s).2

theorem Lasting.writeAll {σ : Type} [ByteSink σ] {p : σ → Prop} (h : Lasting p) {s : σ}
    (pieces : List Bytes) (hs : p s) : p (ByteSink.writeAll s pieces).2 := by
  induction pieces generalizing s with
  | nil => exact hs
  | cons bs pieces ih =>
    have hwrite := h.write bs hs
    rw [ByteSink.writeAll]
    split
    · next heq =>
      rw [heq] at hwrite
      exact ih hwrite
    · next heq =>
      rw [heq] at hwrite
      exact hwrite

namespace BoundedSink

/-- A sink in memory without a capacity and without a failure to flush. -/
def reliable : Reliable BoundedSink where
  sound s := s.capacity = none ∧ s.flushFailure = none
  taken s := s.accepted.toList
  write_spec := by
    rintro ⟨accepted, capacity, writeFailure, flushFailure⟩ bs ⟨rfl, rfl⟩
    exact ⟨_, rfl, ⟨rfl, rfl⟩, Array.toList_appendList⟩
  flush_spec := by
    rintro ⟨accepted, capacity, writeFailure, flushFailure⟩ ⟨rfl, rfl⟩
    exact ⟨_, rfl, ⟨rfl, rfl⟩, rfl⟩

theorem sound_unbounded : reliable.sound unbounded := ⟨rfl, rfl⟩

@[simp] theorem taken_unbounded : reliable.taken unbounded = [] := rfl

end BoundedSink

end Marc21
