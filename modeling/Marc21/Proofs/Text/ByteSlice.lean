import Marc21.Text.ByteSlice
import Marc21.Proofs.Text.Utf8

/-!
Byte offsets at the ends of characters. What stands between two of them is a part of its own (`slice?_append`), and
there is no part between others (`slice?_eq_some_iff`).
-/

namespace Marc21.ByteSlice

/-- Bytes that characters take up. -/
def width (cs : List Char) : Nat := (cs.flatMap Utf8.encodeChar).length

@[simp] theorem width_nil : width [] = 0 := rfl

@[simp] theorem width_cons (c : Char) (cs : List Char) : width (c :: cs) = c.utf8Size + width cs := by
  rw [width, List.flatMap_cons, List.length_append, Utf8.length_encodeChar]
  rfl

@[simp] theorem width_append (cs ds : List Char) : width (cs ++ ds) = width cs + width ds := by
  rw [width, List.flatMap_append, List.length_append]
  rfl

theorem dropBytes_append (cs ds : List Char) : dropBytes (width cs) (cs ++ ds) = some ds := by
  induction cs with
  | nil => rw [width_nil, List.nil_append, dropBytes]
  | cons c cs ih =>
    obtain ⟨n, hn⟩ := Nat.exists_eq_succ_of_ne_zero (Nat.ne_of_gt c.utf8Size_pos)
    have hwidth : width (c :: cs) = n + width cs + 1 := by
      rw [width_cons, hn]
      omega
    have hrest : n + width cs + 1 - c.utf8Size = width cs := by omega
    rw [hwidth, List.cons_append, dropBytes, if_pos (by omega), hrest, ih]

theorem takeBytes_append (cs ds : List Char) : takeBytes (width cs) (cs ++ ds) = some cs := by
  have hdrop := dropBytes_append cs ds
  obtain ⟨hsome, hparts⟩ := takeBytes_append_dropBytes (width cs) (cs ++ ds)
  rw [hdrop] at hsome
  obtain ⟨front, hfront⟩ := Option.isSome_iff_exists.1 hsome.symm
  rw [hfront, List.append_cancel_right (hparts front ds hfront hdrop)]

theorem slice?_append (front part back : List Char) :
    slice? (String.ofList (front ++ (part ++ back))) (width front) (width front + width part) =
      some (String.ofList part) := by
  rw [slice?, String.toList_ofList, dropBytes_append, Nat.add_sub_cancel_left, Option.bind_some,
    takeBytes_append, Option.map_some]

/-- A text has a part between two byte offsets if both are at ends of characters. -/
def PartAt (s : String) (start stop : Nat) (part : String) : Prop :=
  ∃ front back, s.toList = front ++ (part.toList ++ back) ∧ width front = start ∧
    start + width part.toList = stop

section

variable {n : Nat} {cs ds : List Char}

theorem dropBytes_eq_some_iff : dropBytes n cs = some ds ↔ ∃ front, cs = front ++ ds ∧ width front = n := by
  constructor
  · intro h
    induction cs generalizing n with
    | nil =>
      cases n with
      | zero => exact ⟨[], Option.some.inj h, rfl⟩
      | succ n => cases h
    | cons c cs ih =>
      cases n with
      | zero => exact ⟨[], Option.some.inj h, rfl⟩
      | succ n =>
        rw [dropBytes, Option.ite_none_right_eq_some] at h
        obtain ⟨hsize, h⟩ := h
        obtain ⟨front, rfl, hwidth⟩ := ih h
        refine ⟨c :: front, rfl, ?_⟩
        rw [width_cons, hwidth]
        omega
  · rintro ⟨front, rfl, rfl⟩
    exact dropBytes_append front ds

theorem takeBytes_eq_some_iff : takeBytes n cs = some ds ↔ ∃ back, cs = ds ++ back ∧ width ds = n := by
  constructor
  · intro h
    obtain ⟨hsome, hparts⟩ := takeBytes_append_dropBytes n cs
    rw [h] at hsome
    obtain ⟨back, hback⟩ := Option.isSome_iff_exists.1 hsome
    have hcs : cs = ds ++ back := hparts ds back h hback
    obtain ⟨front, hfront, hwidth⟩ := dropBytes_eq_some_iff.1 hback
    rw [hcs] at hfront
    exact ⟨back, hcs, List.append_cancel_right hfront ▸ hwidth⟩
  · rintro ⟨back, rfl, rfl⟩
    exact takeBytes_append ds back

end

theorem slice?_eq_some_iff {s part : String} {start stop : Nat} (h : start ≤ stop) :
    slice? s start stop = some part ↔ PartAt s start stop part := by
  rw [slice?, Option.map_eq_some_iff]
  constructor
  · rintro ⟨cs, hcs, rfl⟩
    obtain ⟨behind, hdrop, htake⟩ := Option.bind_eq_some_iff.1 hcs
    obtain ⟨front, hs, hfront⟩ := dropBytes_eq_some_iff.1 hdrop
    obtain ⟨back, rfl, hwidth⟩ := takeBytes_eq_some_iff.1 htake
    refine ⟨front, back, by rwa [String.toList_ofList], hfront, ?_⟩
    rw [String.toList_ofList, hwidth]
    omega
  · rintro ⟨front, back, hs, rfl, hstop⟩
    have hwidth : stop - width front = width part.toList := by omega
    refine ⟨part.toList, ?_, String.ofList_toList⟩
    rw [hs, dropBytes_append, Option.bind_some, hwidth, takeBytes_append]

end Marc21.ByteSlice
