/-!
Parts of a text by byte offsets. An offset that lies inside a character or behind the end makes no part.
-/

namespace Marc21.ByteSlice

/-- What is left after the first `n` bytes. -/
def dropBytes : Nat → List Char → Option (List Char)
  | 0, cs => some cs
  | _ + 1, [] => none
  | n + 1, c :: cs => if c.utf8Size ≤ n + 1 then dropBytes (n + 1 - c.utf8Size) cs else none

/-- The first `n` bytes. -/
def takeBytes : Nat → List Char → Option (List Char)
  | 0, _ => some []
  | _ + 1, [] => none
  | n + 1, c :: cs =>
    if c.utf8Size ≤ n + 1 then (takeBytes (n + 1 - c.utf8Size) cs).map (c :: ·) else none

/-- The bytes from `start` up to `stop`. -/
def slice? (s : String) (start stop : Nat) : Option String :=
  ((dropBytes start s.toList).bind (takeBytes (stop - start))).map String.ofList

theorem takeBytes_append_dropBytes (n : Nat) (cs : List Char) :
    (dropBytes n cs).isSome = (takeBytes n cs).isSome ∧
      ∀ a b, takeBytes n cs = some a → dropBytes n cs = some b → cs = a ++ b := by
  induction cs generalizing n with
  | nil => cases n <;> simp [dropBytes, takeBytes]
  | cons c cs ih =>
    cases n with
    | zero => simp [dropBytes, takeBytes]
    | succ n =>
      by_cases h : c.utf8Size ≤ n + 1
      · simp only [dropBytes, takeBytes, h, if_true, Option.isSome_map]
        refine ⟨(ih _).1, ?_⟩
        intro a b ha hb
        obtain ⟨a', ha', rfl⟩ := Option.map_eq_some_iff.1 ha
        rw [(ih _).2 a' b ha' hb]
        rfl
      · simp [dropBytes, takeBytes, h]

end Marc21.ByteSlice
