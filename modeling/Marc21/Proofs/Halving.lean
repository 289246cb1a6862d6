import Marc21.Halving
import Marc21.Proofs.StableSort

/-!
What halving finds. If the elements with a property come first, it finds the place behind them (`bisect_append`). So
an element that is put where halving says stands where going through a list in order would put it
(`insertByKey_bisect`).
-/

namespace Marc21

/-- The index in front of the place from which on `p` fails. -/
theorem halve_eq {p : Nat → Bool} {first length place : Nat} (hplace : place ≤ first + length)
    (hp : ∀ i, first < i → i < first + length → (p i = true ↔ i < place)) :
    halve p first length = max first (place - 1) := by
  fun_induction halve p first length with
  | case1 first length hlong half ih =>
    have hmiddle := hp (first + half) (by omega) (by omega)
    -- Whichever half is left, the place is in it.
    obtain ⟨next, hnext, hfirst, hkept, hlast, hmax⟩ : ∃ next,
        (if p (first + half) = true then first + half else first) = next ∧ first ≤ next ∧
          place ≤ next + (length - half) ∧ next + (length - half) ≤ first + length ∧
          max next (place - 1) = max first (place - 1) := by
      split
      · next hfound =>
        have := hmiddle.1 hfound
        exact ⟨_, rfl, by omega⟩
      · next hnot =>
        have := mt hmiddle.2 hnot
        exact ⟨_, rfl, by omega⟩
    simp only [hnext, dite_eq_ite] at ih ⊢
    rw [ih hkept fun i hi hstop => hp i (by omega) (by omega), hmax]
  | case2 first length hshort => omega

section

variable {α : Type} {p : α → Bool} {front behind : List α}

/-- Where elements with a property come first, an index tells whether its element has it. -/
theorem any_getElem?_append (hfront : ∀ x ∈ front, p x = true) (hbehind : ∀ x ∈ behind, p x = false) (i : Nat) :
    (front ++ behind)[i]?.any p = true ↔ i < front.length := by
  by_cases hlt : i < front.length
  · rw [List.getElem?_append_left hlt, List.getElem?_eq_getElem hlt]
    simpa [hlt] using hfront _ (List.getElem_mem hlt)
  · rw [List.getElem?_append_right (Nat.not_lt.1 hlt)]
    simp only [hlt, iff_false]
    cases hget : behind[i - front.length]? with
    | none => simp
    | some x => simpa using hbehind x (List.mem_of_getElem? hget)

/-- Halving finds the end of the elements in front that have a property. -/
theorem bisect_append (hfront : ∀ x ∈ front, p x = true) (hbehind : ∀ x ∈ behind, p x = false) :
    bisect p (front ++ behind) = front.length := by
  have hany := any_getElem?_append hfront hbehind
  have hlast : halve (fun i => (front ++ behind)[i]?.any p) 0 (front ++ behind).length =
      max 0 (front.length - 1) := by
    refine halve_eq ?_ fun i _ _ => hany i
    rw [List.length_append]
    omega
  rw [bisect, hlast, Nat.zero_max]
  split
  · next hfound =>
    have := (hany _).1 hfound
    omega
  · next hnone =>
    have := mt (hany _).2 hnone
    omega

end

/-- In a list in order, halving finds the place behind all elements whose keys are not greater. -/
theorem insertByKey_bisect {α κ : Type} [LinearOrder κ] (key : α → κ) {xs : List α} (h : InOrder key xs) (x : α) :
    xs.take (bisect (key · ≤ key x) xs) ++ x :: xs.drop (bisect (key · ≤ key x) xs) = insertByKey key x xs := by
  obtain ⟨front, behind, rfl, hinserted, hfront, hbehind⟩ := insertByKey_split key x xs
  have hplace : bisect (key · ≤ key x) (front ++ behind) = front.length :=
    bisect_append (fun y hy => decide_eq_true (hfront y hy))
      fun y hy => decide_eq_false (not_le.2 (hbehind h y hy))
  rw [hinserted, hplace, List.take_left, List.drop_left]

/-- In a list that is not in order, halving passes over a greater key that going through would stop at. -/
example : bisect (· ≤ 2) [3, 1] = 2 ∧ insertByKey id 2 [3, 1] = [2, 3, 1] := by decide +kernel

end Marc21
