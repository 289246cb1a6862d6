/-!
Finding a place in a list by halving. Each question about an element leaves out half of the stretch in which the
place can lie. In a list in which all elements with a property come first, the place is behind the last of them. In
any other list it is some place none the less.
-/

namespace Marc21

/-- The last of `length` indices from `first` on at which `p` holds. The first one itself is not asked. -/
def halve (p : Nat → Bool) (first length : Nat) : Nat :=
  if 1 < length then
    let half := length / 2
    halve p (if p (first + half) then first + half else first) (length - half)
  else first
termination_by length

/-- How many elements there are in front that have a property. -/
def bisect {α : Type} (p : α → Bool) (xs : List α) : Nat :=
  let last := halve (fun i => xs[i]?.any p) 0 xs.length
  if xs[last]?.any p then last + 1 else last

end Marc21
