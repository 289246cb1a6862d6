/-!
How much of a stream can be seen at a time. It matters only to a reading that judges what it sees as a
whole. Where the view ends after some bytes does not depend on the pieces in which they were read.
-/

namespace Marc21

/-- How many bytes are fetched from a file at a time. -/
def blockSize : Nat := 8192

inductive Supply where
  /-- From any place the next `size` bytes can be seen. -/
  | window (size : Nat)
  /-- The next `ready` bytes can be seen. When they are used up, `size` more are fetched. -/
  | blocks (ready size : Nat)
  deriving DecidableEq, Repr

namespace Supply

/-- How many bytes come into view when those in view are used up. -/
def size : Supply → Nat
  | window size => size
  | blocks _ size => size

/-- How many of the bytes ahead are in view. -/
def visible : Supply → Nat
  | window size => size
  | blocks ready size => if ready = 0 then size else ready

/-- The supply behind `n` more bytes. A block is fetched for its first byte, so between two blocks nothing
is ready. -/
def pass : Supply → Nat → Supply
  | window size, _ => window size
  | blocks ready size, n =>
    blocks (if n ≤ ready then ready - n else size - 1 - (n - ready - 1) % size) size

/-- Passing some bytes and then more comes to passing all of them. -/
theorem pass_pass (s : Supply) (m n : Nat) (h : 0 < s.size) :
    (s.pass m).pass n = s.pass (m + n) := by
  cases s with
  | window => rfl
  | blocks ready size =>
    change 0 < size at h
    unfold pass
    by_cases hm : m ≤ ready
    · have hle : n ≤ ready - m ↔ m + n ≤ ready := by omega
      have hlen : n - (ready - m) - 1 = m + n - ready - 1 := by omega
      simp only [hm, hle, hlen, Nat.sub_sub, if_true]
    · have hmn : ¬m + n ≤ ready := by omega
      have hlen : m + n - ready - 1 = m - ready - 1 + n := by omega
      simp only [hm, hmn, hlen, if_false]
      generalize m - ready - 1 = k
      have hlt := Nat.mod_lt k h
      split
      · have hmod : (k + n) % size = k % size + n := by
          rw [← Nat.mod_add_mod]
          exact Nat.mod_eq_of_lt (by omega)
        rw [hmod, ← Nat.sub_sub]
      · have hsum : k % size + n = n - (size - 1 - k % size) - 1 + size := by omega
        rw [← Nat.mod_add_mod k, hsum, Nat.add_mod_right]

end Supply

end Marc21
