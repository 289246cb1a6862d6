import Mathlib.Data.List.Basic
import Mathlib.Data.List.GetD
import Marc21.Proofs.Leader
import Marc21.Slim.Stage

/-!
The text of a leader element, position by position. It is usable if it has the right characters in the places
of numbers, where blanks will do for the two lengths, and then each place says what it means
(`leaderOfText_eq_ok`).
-/

namespace Marc21

namespace Utf8

/-- All bytes are ASCII if all characters are. -/
theorem all_encode_lt {s : String} :
    (encode s).all (· < 0x80) = true ↔ ∀ c ∈ s.toList, c.toNat < 0x80 := by
  rw [List.all_eq_true]
  constructor
  · intro h c hc
    obtain ⟨b, hb⟩ := List.exists_mem_of_ne_nil _ (encodeChar_ne_nil c)
    have hlt := of_decide_eq_true (h b (List.mem_flatMap.2 ⟨c, hc, hb⟩))
    rw [UInt8.lt_iff_toNat_lt] at hlt
    rw [(mem_encodeChar_iff hlt).1 hb]
    exact hlt
  · intro h b hb
    obtain ⟨c, hc, hb⟩ := List.mem_flatMap.1 hb
    rw [encodeChar_of_lt (h c hc), List.mem_singleton] at hb
    rw [hb, decide_eq_true_eq]
    exact Leader.lowByte_lt (h c hc)

theorem encode_eq_map {s : String} (h : ∀ c ∈ s.toList, c.toNat < 0x80) :
    encode s = s.toList.map Leader.lowByte := by
  have hone : s.toList.map encodeChar = s.toList.map fun c => [Leader.lowByte c] :=
    List.map_congr_left fun c hc => encodeChar_of_lt (h c hc)
  rw [encode, List.flatMap_def, hone, ← List.flatMap_def, ← List.map_eq_flatMap]

end Utf8

namespace Slim

/-- The place of a length: digits, or nothing but blanks. -/
def Numeric (cs : List Char) : Prop := (∀ c ∈ cs, c.isDigit = true) ∨ ∀ c ∈ cs, c = ' '

/-- The number that digits stand for. Blanks count as zeros. -/
def numberOf (cs : List Char) : Nat := cs.foldl (fun n c => n * 10 + (c.toNat - '0'.toNat)) 0

/-- A text that a leader can be read from. -/
structure LeaderText (text : String) : Prop where
  length_eq : text.toList.length = 24
  ascii : ∀ c ∈ text.toList, c.toNat < 0x80
  recordLength : Numeric (text.toList.take 5)
  indicatorCount : (text.toList.getD 10 ' ').isDigit = true
  subfieldCodeCount : (text.toList.getD 11 ' ').isDigit = true
  baseAddress : Numeric ((text.toList.drop 12).take 5)

/-- The leader that the positions of a text stand for. -/
def leaderAt (text : String) : Leader :=
  let char (i : Nat) : Char := text.toList.getD i ' '
  { recordLength := numberOf (text.toList.take 5)
    status := char 5
    recordType := char 6
    level := char 7
    controlType := char 8
    coding := char 9
    indicatorCount := numberOf [char 10]
    subfieldCodeCount := numberOf [char 11]
    baseAddress := numberOf ((text.toList.drop 12).take 5)
    encodingLevel := char 17
    catalogingForm := char 18
    multipartLevel := char 19
    entryMap := ⟨char 20, char 21, char 22, char 23⟩ }

/-! ## Numbers -/

section

variable {cs : List Char}

theorem isDigit_lowByte {c : Char} (h : c.toNat < 0x80) : isDigit (Leader.lowByte c) = c.isDigit := by
  have hlow : (Leader.lowByte c).toNat = c.toNat := Utf8.toNat_toUInt8 (by omega)
  have hval : c.val.toNat = c.toNat := rfl
  rw [isDigit, Char.isDigit, Bool.eq_iff_iff]
  simp only [Bool.and_eq_true, decide_eq_true_eq, UInt8.le_iff_toNat_le, hlow, ge_iff_le,
    UInt32.le_iff_toNat_le, hval]
  exact Iff.rfl

theorem value_map_lowByte (h : ∀ c ∈ cs, c.toNat < 0x80) :
    Decimal.value (cs.map Leader.lowByte) = numberOf cs := by
  rw [Decimal.value, numberOf, List.foldl_map]
  refine List.foldl_ext _ _ _ fun n c hc => ?_
  rw [Leader.lowByte, Utf8.toNat_toUInt8 (Nat.lt_trans (h c hc) (by decide))]
  rfl

theorem all_isDigit_map_lowByte (h : ∀ c ∈ cs, c.toNat < 0x80) :
    (cs.map Leader.lowByte).all isDigit = true ↔ ∀ c ∈ cs, c.isDigit = true := by
  rw [List.all_map, List.all_eq_true]
  refine forall₂_congr fun c hc => ?_
  rw [Function.comp_apply, isDigit_lowByte (h c hc)]

theorem all_blank_map_lowByte (h : ∀ c ∈ cs, c.toNat < 0x80) :
    (cs.map Leader.lowByte).all (· == 0x20) = true ↔ ∀ c ∈ cs, c = ' ' := by
  rw [List.all_map, List.all_eq_true]
  refine forall₂_congr fun c hc => ?_
  rw [Function.comp_apply, beq_iff_eq]
  constructor
  · intro heq
    rw [← Leader.charOfNat_lowByte (h c hc), heq]
    rfl
  · rintro rfl
    rfl

theorem numberOf_blank (h : ∀ c ∈ cs, c = ' ') : numberOf cs = 0 := by
  induction cs with
  | nil => rfl
  | cons c cs ih =>
    obtain ⟨rfl, hcs⟩ := List.forall_mem_cons.1 h
    exact ih hcs

theorem value_zeros (width : Nat) : Decimal.value (List.replicate width 0x30) = 0 := by
  induction width with
  | zero => rfl
  | succ width ih => exact ih

theorem number_zeros (what : LeaderNumber) (width : Nat) :
    Leader.number what (List.replicate width 0x30) = .ok 0 := by
  have hdigits : (List.replicate width (0x30 : UInt8)).all isDigit = true := by
    rw [List.all_eq_true]
    intro b hb
    rw [List.eq_of_mem_replicate hb]
    rfl
  rw [Leader.number, Decimal.value?, if_pos hdigits, value_zeros]

theorem number_fillBlank (what : LeaderNumber) {n : Nat} (h : ∀ c ∈ cs, c.toNat < 0x80) :
    Leader.number what (fillBlank (cs.map Leader.lowByte)) = .ok n ↔ Numeric cs ∧ n = numberOf cs := by
  unfold fillBlank
  split
  · next hblank =>
    have hcs := (all_blank_map_lowByte h).1 hblank
    rw [number_zeros, numberOf_blank hcs]
    constructor
    · rintro ⟨⟩
      exact ⟨.inr hcs, rfl⟩
    · rintro ⟨_, rfl⟩
      rfl
  · next hblank =>
    rw [all_blank_map_lowByte h] at hblank
    rw [Leader.number, Decimal.value?, value_map_lowByte h]
    by_cases hdigits : ∀ c ∈ cs, c.isDigit = true
    · rw [if_pos ((all_isDigit_map_lowByte h).2 hdigits)]
      constructor
      · rintro ⟨⟩
        exact ⟨.inl hdigits, rfl⟩
      · rintro ⟨_, rfl⟩
        rfl
    · rw [if_neg (mt (all_isDigit_map_lowByte h).1 hdigits)]
      constructor
      · rintro ⟨⟩
      · rintro ⟨hnumeric | hnumeric, _⟩
        · exact absurd hnumeric hdigits
        · exact absurd hnumeric hblank

theorem count_eq_ok (what : LeaderCount) {c : Char} {n : Nat} (h : c.toNat < 0x80) :
    Leader.count what (Leader.lowByte c) = .ok n ↔ c.isDigit = true ∧ n = numberOf [c] := by
  have hnumber : numberOf [c] = (Leader.lowByte c).toNat - 0x30 := by
    rw [Leader.lowByte, Utf8.toNat_toUInt8 (Nat.lt_trans h (by decide))]
    exact Nat.zero_add _
  rw [Leader.count, isDigit_lowByte h, hnumber]
  split
  · next hdigit => simp [hdigit, eq_comm]
  · next hdigit => simp [hdigit]

end

/-! ## Positions -/

/-- The bytes of a leader with zeros for a length that is left blank. -/
def filled (bs : Bytes) : Bytes :=
  fillBlank (bs.take 5) ++ (bs.drop 5).take 7 ++ fillBlank ((bs.drop 12).take 5) ++ bs.drop 17

@[simp] theorem length_fillBlank (bs : Bytes) : (fillBlank bs).length = bs.length := by
  unfold fillBlank
  split
  · exact List.length_replicate
  · rfl

theorem lt_of_mem_fillBlank {bs : Bytes} (h : ∀ b ∈ bs, b < 0x80) {b : UInt8} (hb : b ∈ fillBlank bs) :
    b < 0x80 := by
  unfold fillBlank at hb
  split at hb
  · rw [List.eq_of_mem_replicate hb]
    decide
  · exact h b hb

section

variable {bs : Bytes}

theorem length_filled (h : bs.length = 24) : (filled bs).length = 24 := by
  simp [filled, h]

theorem lt_of_mem_filled (h : ∀ b ∈ bs, b < 0x80) {b : UInt8} (hb : b ∈ filled bs) : b < 0x80 := by
  simp only [filled, List.mem_append] at hb
  rcases hb with ((hb | hb) | hb) | hb
  · exact lt_of_mem_fillBlank (fun b hb => h b (List.mem_of_mem_take hb)) hb
  · exact h b (List.mem_of_mem_drop (List.mem_of_mem_take hb))
  · exact lt_of_mem_fillBlank (fun b hb => h b (List.mem_of_mem_drop (List.mem_of_mem_take hb))) hb
  · exact h b (List.mem_of_mem_drop hb)

theorem take_filled (h : bs.length = 24) : (filled bs).take 5 = fillBlank (bs.take 5) := by
  rw [filled, List.append_assoc, List.append_assoc]
  exact List.take_left' (by simp [h])

theorem drop_take_filled (h : bs.length = 24) :
    ((filled bs).drop 12).take 5 = fillBlank ((bs.drop 12).take 5) := by
  rw [filled, List.append_assoc, List.drop_left' (by simp [h])]
  exact List.take_left' (by simp [h])

/-- The other positions stay as they are. -/
theorem getD_filled (h : bs.length = 24) {i : Nat} (hi : 5 ≤ i ∧ i < 12 ∨ 17 ≤ i) :
    (filled bs).getD i 0 = bs.getD i 0 := by
  rw [List.getD_eq_getElem?_getD, List.getD_eq_getElem?_getD, filled]
  congr 1
  rcases hi with ⟨hlow, hhigh⟩ | hlow
  · rw [List.append_assoc, List.getElem?_append_left (by simp [h]; omega),
      List.getElem?_append_right (by simp [h]; omega), length_fillBlank, List.length_take, h,
      List.getElem?_take_of_lt (by omega), List.getElem?_drop]
    congr 1
    omega
  · rw [List.getElem?_append_right (by simp [h]; omega), List.getElem?_drop]
    congr 1
    simp [h]
    omega

end

section

variable {text : String} {l : Leader}

theorem getD_lt (hchars : ∀ c ∈ text.toList, c.toNat < 0x80) (i : Nat) :
    (text.toList.getD i ' ').toNat < 0x80 := by
  by_cases hi : i < text.toList.length
  · rw [List.getD_eq_getElem _ _ hi]
    exact hchars _ (List.getElem_mem hi)
  · rw [List.getD_eq_default _ _ (Nat.le_of_not_lt hi)]
    decide

theorem getD_filled_encode (hchars : ∀ c ∈ text.toList, c.toNat < 0x80) (hlength : text.toList.length = 24)
    (i : Nat) (hi : 5 ≤ i ∧ i < 12 ∨ 17 ≤ i ∧ i < 24) :
    (filled (Utf8.encode text)).getD i 0 = Leader.lowByte (text.toList.getD i ' ') := by
  have hbound : i < text.toList.length := by omega
  rw [Utf8.encode_eq_map hchars, getD_filled (by rw [List.length_map, hlength]) (by omega),
    List.getD_eq_getElem _ _ (by rw [List.length_map]; exact hbound), List.getD_eq_getElem _ _ hbound,
    List.getElem_map]

theorem ofBytes_filled (hchars : ∀ c ∈ text.toList, c.toNat < 0x80) (hlength : text.toList.length = 24) :
    Leader.ofBytes (filled (Utf8.encode text)) = .ok l ↔ LeaderText text ∧ l = leaderAt text := by
  have hbytes := Utf8.encode_eq_map hchars
  have h24 : (Utf8.encode text).length = 24 := by rw [hbytes, List.length_map, hlength]
  have hascii : (filled (Utf8.encode text)).all (· < 0x80) = true := List.all_eq_true.2 fun b hb =>
    decide_eq_true (lt_of_mem_filled (fun b hb => of_decide_eq_true
      (List.all_eq_true.1 (Utf8.all_encode_lt.2 hchars) b hb)) hb)
  have hfirst : fillBlank ((Utf8.encode text).take 5) =
      fillBlank ((text.toList.take 5).map Leader.lowByte) := by rw [hbytes, List.map_take]
  have hsecond : fillBlank (((Utf8.encode text).drop 12).take 5) =
      fillBlank (((text.toList.drop 12).take 5).map Leader.lowByte) := by
    rw [hbytes, List.map_take, List.map_drop]
  have hbyte := getD_filled_encode hchars hlength
  have hchar (i : Nat) (hi : 5 ≤ i ∧ i < 12 ∨ 17 ≤ i ∧ i < 24) :
      Char.ofNat ((filled (Utf8.encode text)).getD i 0).toNat = text.toList.getD i ' ' := by
    rw [hbyte i hi, Leader.charOfNat_lowByte (getD_lt hchars i)]
  rw [Leader.ofBytes_eq_ok (length_filled h24) hascii, take_filled h24, drop_take_filled h24, hfirst, hsecond,
    hbyte 10 (by omega), hbyte 11 (by omega)]
  simp only [number_fillBlank _ fun c hc => hchars c (List.mem_of_mem_take hc),
    number_fillBlank _ fun c hc => hchars c (List.mem_of_mem_drop (List.mem_of_mem_take hc)),
    count_eq_ok _ (getD_lt hchars _), hchar 5 (by omega), hchar 6 (by omega), hchar 7 (by omega),
    hchar 8 (by omega), hchar 9 (by omega), hchar 17 (by omega), hchar 18 (by omega), hchar 19 (by omega),
    hchar 20 (by omega), hchar 21 (by omega), hchar 22 (by omega), hchar 23 (by omega)]
  constructor
  · rintro ⟨_, _, _, _, ⟨hrecord, rfl⟩, ⟨hcount, rfl⟩, ⟨hcodes, rfl⟩, ⟨hbase, rfl⟩, hl⟩
    exact ⟨⟨hlength, hchars, hrecord, hcount, hcodes, hbase⟩, hl⟩
  · rintro ⟨htext, hl⟩
    exact ⟨_, _, _, _, ⟨htext.recordLength, rfl⟩, ⟨htext.indicatorCount, rfl⟩,
      ⟨htext.subfieldCodeCount, rfl⟩, ⟨htext.baseAddress, rfl⟩, hl⟩

/-- **A leader element is read position by position.** -/
theorem leaderOfText_eq_ok : leaderOfText text = .ok l ↔ LeaderText text ∧ l = leaderAt text := by
  have hunfold : leaderOfText text =
      if (Utf8.encode text).length ≠ 24 ∨ !(Utf8.encode text).all (· < 0x80) then .error (.badLeader text)
      else (Leader.ofBytes (filled (Utf8.encode text))).mapError .leader := rfl
  by_cases hchars : ∀ c ∈ text.toList, c.toNat < 0x80
  · by_cases hlength : text.toList.length = 24
    · have h24 : (Utf8.encode text).length = 24 := by
        rw [Utf8.encode_eq_map hchars, List.length_map, hlength]
      rw [hunfold, if_neg (by simp [h24, Utf8.all_encode_lt.2 hchars]), ← ofBytes_filled hchars hlength]
      cases Leader.ofBytes (filled (Utf8.encode text)) <;> simp [Except.mapError]
    · rw [hunfold, if_pos (.inl (by rw [Utf8.encode_eq_map hchars, List.length_map]; exact hlength))]
      constructor
      · rintro ⟨⟩
      · rintro ⟨htext, _⟩
        exact absurd htext.length_eq hlength
  · rw [hunfold, if_pos (.inr (by simpa [← Utf8.all_encode_lt] using hchars))]
    constructor
    · rintro ⟨⟩
    · rintro ⟨htext, _⟩
      exact absurd htext.ascii hchars

end

end Slim

end Marc21
