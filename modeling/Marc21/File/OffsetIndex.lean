import Marc21.File.Reader

/-!
The offsets of the records of a binary file by control number. A record without one counts as having the
empty one, and of several records with one number the last counts.
-/

namespace Marc21

/-- Control numbers with offsets, in the order of the numbers. -/
abbrev OffsetIndex := List (String × Nat)

namespace OffsetIndex

/-- Gives a control number an offset in the place of the one it has. -/
def put (number : String) (offset : Nat) : OffsetIndex → OffsetIndex
  | [] => [(number, offset)]
  | entry :: rest =>
    if number = entry.1 then (number, offset) :: rest
    else if number < entry.1 then (number, offset) :: entry :: rest
    else entry :: put number offset rest

/-- The offset put last counts, and no other number's offset changes. -/
theorem lookup_put (number other : String) (offset : Nat) (index : OffsetIndex) :
    (put number offset index).lookup other =
      if other = number then some offset else index.lookup other := by
  have step (key : String) (value : Nat) (rest : OffsetIndex) :
      List.lookup other ((key, value) :: rest) =
        if other = key then some value else rest.lookup other := by
    rw [List.lookup_cons]
    by_cases h : other = key
    · simp [h]
    · simp [beq_false_of_ne h, h]
  induction index with
  | nil => simp [put, step]
  | cons entry rest ih =>
    obtain ⟨key, value⟩ := entry
    unfold put
    split
    · next hk =>
      subst hk
      rw [step, step]
      split <;> rfl
    · next hk =>
      split
      · rw [step]
      · rw [step, step, ih]
        by_cases h : other = number
        · subst h
          simp only [hk, if_false, if_true]
        · simp only [h, if_false]

end OffsetIndex

namespace FileReader

/-- Reads to the end and puts down where each record starts. -/
def offsets (r : FileReader) (t : FileTree) : Outcome FileReader OffsetIndex :=
  match r.tell with
  | .error e => ⟨.error e, r, []⟩
  | .ok _ =>
    let w := (r.current t).walk id (fun index before record =>
      let number := record.controlNumber?.getD ""
      (.ok (), OffsetIndex.put number (before.tell?.getD 0) index, [])) []
    ⟨w.result.map fun _ => w.value, r.moved t (r.current t) w.reader, w.notices⟩

end FileReader

end Marc21
