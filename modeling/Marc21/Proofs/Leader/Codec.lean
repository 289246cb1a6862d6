import Marc21.Proofs.Iso2709.Bounds

/-!
Reading a leader and writing it. Digits of a fixed width, with their leading zeros, stand for one number and are
written again as they were, and each other position holds one character, so what has been read is written as the same
24 bytes (`bytes_of_ofBytes`). What is too large for its place is cut when it is written, so a leader is read back
exactly if nothing in it is (`ofBytes_bytes_eq_ok_iff`).
-/

namespace Marc21.Leader

variable {bs : Bytes} {l : Leader}

/-- The bytes at some positions that stand side by side. -/
theorem map_getD_range' {start count : Nat} (h : start + count ≤ bs.length) :
    (List.range' start count).map (bs.getD · 0) = (bs.drop start).take count := by
  apply List.ext_getElem
  · rw [List.length_map, List.length_range', List.length_take, List.length_drop]
    omega
  · intro i hi _
    rw [List.length_map, List.length_range'] at hi
    rw [List.getElem_map, List.getElem_range', List.getElem_take, List.getElem_drop, Nat.one_mul,
      List.getElem_eq_getD 0]

/-- A number is written with as many digits as it was read from. -/
theorem digits_of_number {what : LeaderNumber} {n : Nat} (h : number what bs = .ok n) :
    Decimal.digits bs.length n = bs := by
  unfold number at h
  split at h
  · next hvalue =>
    cases h
    exact Decimal.digits_of_value? hvalue
  · cases h

theorem digit_of_count {what : LeaderCount} {b : UInt8} {n : Nat} (h : count what b = .ok n) :
    Decimal.digit n = b := by
  unfold count at h
  split at h
  · next hdigit =>
    cases h
    exact Decimal.digit_toNat_sub hdigit
  · cases h

/-- A leader that was read is written as the bytes that it was read from. -/
theorem bytes_of_ofBytes (h : ofBytes bs = .ok l) : l.bytes = bs.take 24 := by
  obtain ⟨hlength, hascii, hhead⟩ := ofBytes_take h
  obtain ⟨recordLength, indicatorCount, subfieldCodeCount, baseAddress, hrecordLength, hindicators,
    hcodes, hbase, rfl⟩ := (ofBytes_eq_ok hlength hascii).1 hhead
  generalize bs.take 24 = head at hlength hrecordLength hindicators hcodes hbase ⊢
  have hfive (start : Nat) (hstart : start + 5 ≤ 24) : ((head.drop start).take 5).length = 5 := by
    rw [List.length_take, List.length_drop]
    omega
  have hfirst : Decimal.digits 5 recordLength = head.take 5 := by
    have := digits_of_number hrecordLength
    rwa [show (head.take 5).length = 5 from hfive 0 (by decide)] at this
  have hsecond : Decimal.digits 5 baseAddress = (head.drop 12).take 5 := by
    have := digits_of_number hbase
    rwa [hfive 12 (by decide)] at this
  have hpart (start count : Nat) (hstop : start + count ≤ 24) :
      (List.range' start count).map (head.getD · 0) = (head.drop start).take count :=
    map_getD_range' (hlength ▸ hstop)
  -- The five parts of a leader lie side by side.
  have hparts : head.take 5 ++ (List.range' 5 5).map (head.getD · 0) ++ (List.range' 10 2).map (head.getD · 0) ++
      (head.drop 12).take 5 ++ (List.range' 17 7).map (head.getD · 0) = head := by
    rw [hpart 5 5 (by decide), hpart 10 2 (by decide), hpart 17 7 (by decide), ← List.take_add, ← List.take_add,
      ← List.take_add, ← List.take_add]
    exact List.take_of_length_le (Nat.le_of_eq hlength)
  calc bytes _
      = head.take 5 ++ (List.range' 5 5).map (head.getD · 0) ++ (List.range' 10 2).map (head.getD · 0) ++
          (head.drop 12).take 5 ++ (List.range' 17 7).map (head.getD · 0) := by
        rw [bytes, hfirst, hsecond, digit_of_count hindicators, digit_of_count hcodes]
        simp only [List.map_cons, List.map_nil, lowByte_charOfNat]
        rfl
    _ = head := hparts

/-- What can be read as a leader are its bytes, with anything behind them, if they hold all of it. -/
theorem ofBytes_eq_ok_iff_bytes : ofBytes bs = .ok l ↔ l.Fits ∧ l.bytes = bs.take 24 := by
  constructor
  · intro h
    exact ⟨fits_of_ofBytes h, bytes_of_ofBytes h⟩
  · rintro ⟨hfits, hbytes⟩
    have hread := ofBytes_bytes hfits.encodable hfits.recordLength_le hfits.baseAddress_le (bs.drop 24)
    rwa [hbytes, List.take_append_drop] at hread

/-! ## Main result -/

/-- **Reading and writing of leaders.** Bytes are read as a leader exactly if it is written as the first 24 of them, its
characters are ASCII, its two lengths have no more than five digits, and its two counts have one. So a leader is read
back from what is written exactly if it is of that kind. Whatever the bytes are, neither of the two numbers that are
taken on digit by digit comes to more than 32 bits on the way. -/
theorem ofBytes_codec :
    (∀ (bs : Bytes) (l : Leader), ofBytes bs = .ok l ↔ l.bytes = bs.take 24 ∧ (∀ c ∈ l.chars, c.toNat < 0x80) ∧
      (l.recordLength ≤ 99999 ∧ l.baseAddress ≤ 99999) ∧ l.indicatorCount ≤ 9 ∧ l.subfieldCodeCount ≤ 9) ∧
    (∀ l : Leader, ofBytes l.bytes = .ok l ↔ (∀ c ∈ l.chars, c.toNat < 0x80) ∧
      (l.recordLength ≤ 99999 ∧ l.baseAddress ≤ 99999) ∧ l.indicatorCount ≤ 9 ∧ l.subfieldCodeCount ≤ 9) ∧
    ∀ bs : Bytes, (ofBytesChecked bs).Yields (ofBytes bs) := by
  have hfits (l : Leader) : l.Fits ↔ (∀ c ∈ l.chars, c.toNat < 0x80) ∧
      (l.recordLength ≤ 99999 ∧ l.baseAddress ≤ 99999) ∧ l.indicatorCount ≤ 9 ∧ l.subfieldCodeCount ≤ 9 :=
    ⟨fun h => ⟨h.encodable.ascii, ⟨h.recordLength_le, h.baseAddress_le⟩, h.encodable.indicatorCount_le,
      h.encodable.subfieldCodeCount_le⟩, fun ⟨hascii, hlengths, hindicators, hcodes⟩ =>
      ⟨⟨hascii, hindicators, hcodes⟩, hlengths.1, hlengths.2⟩⟩
  refine ⟨fun bs l => ?_, fun l => ?_, yields_ofBytesChecked⟩
  · rw [← hfits, ofBytes_eq_ok_iff_bytes, and_comm]
  · have htake : l.bytes.take 24 = l.bytes := List.take_of_length_le (Nat.le_of_eq l.length_bytes)
    rw [← hfits, ofBytes_eq_ok_iff_bytes, htake]
    exact and_iff_left rfl

/-- Numbers keep their zeros in front, and what follows the leader does not count. -/
example : (ofBytes (Utf8.encode "00714cam a2200205 a 4500rest")).toOption.map bytes =
    some (Utf8.encode "00714cam a2200205 a 4500") := by decide

end Marc21.Leader
