import Mathlib.Data.List.Induction
import Marc21.Leader
import Marc21.Proofs.Text.Utf8

/-!
What a leader is read as from its bytes, whatever follows them (`ofBytes_bytes_eq`). It is read back if
nothing in it is too large for its place (`ofBytes_bytes`), and every leader that is read is of that kind
(`fits_of_ofBytes`).
-/

namespace Marc21

namespace Decimal

/-- A number that fits into the width is read back. -/
theorem value?_digits_of_lt (width : Nat) {n : Nat} (h : n < Nat.pow 10 width) :
    value? (digits width n) = some n := by
  rw [value?_digits, Nat.mod_eq_of_lt h]

/-- Digits are ASCII. -/
theorem lt_of_mem_digits {width n : Nat} {b : UInt8} (h : b ∈ digits width n) : b < 0x80 := by
  have hdigit := List.all_eq_true.1 (all_isDigit_digits width n) b h
  simp only [isDigit, Bool.and_eq_true, decide_eq_true_eq, UInt8.le_iff_toNat_le] at hdigit
  rw [UInt8.lt_iff_toNat_lt]
  exact Nat.lt_of_le_of_lt hdigit.2 (by decide)

/-- Digits of some width stand for a number of that width. -/
theorem value_lt {bs : Bytes} (h : bs.all isDigit = true) : value bs < Nat.pow 10 bs.length := by
  induction bs using List.reverseRecOn with
  | nil => exact Nat.one_pos
  | append_singleton bs b ih =>
    rw [List.all_append, Bool.and_eq_true, List.all_cons, Bool.and_eq_true] at h
    obtain ⟨hbs, hb, _⟩ := h
    simp only [isDigit, Bool.and_eq_true, decide_eq_true_eq, UInt8.le_iff_toNat_le] at hb
    have hlt := ih hbs
    have hdigit : b.toNat ≤ 0x39 := hb.2
    rw [value_append_singleton, List.length_append, List.length_singleton]
    change _ < Nat.pow 10 bs.length * 10
    omega

theorem digit_toNat_sub {b : UInt8} (h : isDigit b = true) : digit (b.toNat - 0x30) = b := by
  simp only [isDigit, Bool.and_eq_true, decide_eq_true_eq, UInt8.le_iff_toNat_le] at h
  have hlow : 0x30 ≤ b.toNat := h.1
  have hhigh : b.toNat ≤ 0x39 := h.2
  apply UInt8.toNat_inj.1
  rw [toNat_digit]
  omega

/-- Digits are written again as they were, leading zeros included. -/
theorem digits_value {bs : Bytes} (h : bs.all isDigit = true) : digits bs.length (value bs) = bs := by
  induction bs using List.reverseRecOn with
  | nil => rfl
  | append_singleton bs b ih =>
    rw [List.all_append, Bool.and_eq_true, List.all_cons, Bool.and_eq_true] at h
    obtain ⟨hbs, hb, _⟩ := h
    have hdigit := digit_toNat_sub hb
    simp only [isDigit, Bool.and_eq_true, decide_eq_true_eq, UInt8.le_iff_toNat_le] at hb
    have hlt : b.toNat - 0x30 < 10 := by
      have hhigh : b.toNat ≤ 0x39 := hb.2
      omega
    have hdiv : (value bs * 10 + (b.toNat - 0x30)) / 10 = value bs := by omega
    have hlast : digit (value bs * 10 + (b.toNat - 0x30)) = digit (b.toNat - 0x30) := by
      rw [digit, digit, Nat.mul_add_mod_self_right]
    rw [value_append_singleton, List.length_append, List.length_singleton, digits, hdiv, ih hbs, hlast,
      hdigit]

theorem digits_of_value? {bs : Bytes} {n : Nat} (h : value? bs = some n) : digits bs.length n = bs := by
  unfold value? at h
  split at h
  · next hdigits =>
    cases h
    exact digits_value hdigits
  · cases h

theorem lt_of_value? {bs : Bytes} {n : Nat} (h : value? bs = some n) : n < Nat.pow 10 bs.length := by
  unfold value? at h
  split at h
  · next hdigits =>
    cases h
    exact value_lt hdigits
  · cases h

end Decimal

namespace Leader

/-- The character positions in order. -/
def chars (l : Leader) : List Char :=
  [l.status, l.recordType, l.level, l.controlType, l.coding, l.encodingLevel, l.catalogingForm,
    l.multipartLevel, l.entryMap.lengthWidth, l.entryMap.offsetWidth,
    l.entryMap.implementationWidth, l.entryMap.undefined]

/-- A leader whose characters and counts take one byte each. -/
structure Encodable (l : Leader) : Prop where
  ascii : ∀ c ∈ l.chars, c.toNat < 0x80
  indicatorCount_le : l.indicatorCount ≤ 9
  subfieldCodeCount_le : l.subfieldCodeCount ≤ 9

/-- A leader that takes its 24 bytes, the two lengths included. -/
structure Fits (l : Leader) : Prop where
  encodable : l.Encodable
  recordLength_le : l.recordLength ≤ 99999
  baseAddress_le : l.baseAddress ≤ 99999

/-- The leader of a fresh record can be written. -/
theorem encodable_fresh (type : MaterialType) (level : BibliographicLevel) :
    (fresh type level).Encodable := by
  have htype : type.code.toNat < 0x80 := by cases type <;> decide
  have hlevel : level.code.toNat < 0x80 := by cases level <;> decide
  refine ⟨?_, (by decide : 2 ≤ 9), (by decide : 2 ≤ 9)⟩
  simp [chars, fresh, htype, hlevel]

@[simp] theorem length_bytes (l : Leader) : l.bytes.length = 24 := by
  simp [bytes]

theorem charOfNat_lowByte {c : Char} (h : c.toNat < 0x80) :
    Char.ofNat (lowByte c).toNat = c := by
  rw [lowByte, Utf8.toNat_toUInt8 (by omega), Char.ofNat_toNat]

@[simp] theorem lowByte_charOfNat (b : UInt8) : lowByte (Char.ofNat b.toNat) = b := by
  have hb := b.toNat_lt
  rw [lowByte, Utf8.toNat_charOfNat (.inl (by omega))]
  exact UInt8.ofNat_toNat

theorem lowByte_lt {c : Char} (h : c.toNat < 0x80) : lowByte c < 0x80 := by
  rw [UInt8.lt_iff_toNat_lt, lowByte, Utf8.toNat_toUInt8 (by omega)]
  exact h

private theorem digit_lt (n : Nat) : Decimal.digit n < 0x80 := by
  rw [UInt8.lt_iff_toNat_lt, Decimal.toNat_digit]
  change _ < 128
  omega

private theorem count_digit (what : LeaderCount) (n : Nat) :
    count what (Decimal.digit n) = .ok (n % 10) := by
  rw [count, if_pos (Decimal.isDigit_digit n), Decimal.toNat_digit]
  congr 1
  omega

private theorem number_digits (what : LeaderNumber) (n : Nat) :
    number what (Decimal.digits 5 n) = .ok (n % 100000) := by
  rw [number, Decimal.value?_digits]

theorem all_chars_ascii_iff {l : Leader} :
    l.chars.all (lowByte · < 0x80) = true ↔ ∀ c ∈ l.chars, lowByte c < 0x80 := by
  simp only [List.all_eq_true, decide_eq_true_eq]

/-- All bytes of a leader are ASCII if its characters come to that, since digits always do. -/
theorem bytes_ascii_iff {l : Leader} :
    (∀ b ∈ l.bytes, b < 0x80) ↔ ∀ c ∈ l.chars, lowByte c < 0x80 := by
  have hdigits (width n : Nat) : (∀ b ∈ Decimal.digits width n, b < 0x80) ↔ True :=
    iff_true_intro fun _ => Decimal.lt_of_mem_digits
  simp only [bytes, chars, List.forall_mem_append, List.forall_mem_map, List.forall_mem_cons, hdigits,
    digit_lt, true_and, and_true, List.not_mem_nil, false_implies, implies_true, and_assoc]

theorem all_bytes_ascii (l : Leader) :
    l.bytes.all (· < 0x80) = l.chars.all (lowByte · < 0x80) := by
  rw [Bool.eq_iff_iff, all_chars_ascii_iff, ← bytes_ascii_iff]
  simp only [List.all_eq_true, decide_eq_true_eq]

theorem lt_of_mem_bytes {l : Leader} (h : ∀ c ∈ l.chars, c.toNat < 0x80) {b : UInt8}
    (hb : b ∈ l.bytes) : b < 0x80 :=
  bytes_ascii_iff.2 (fun c hc => lowByte_lt (h c hc)) b hb

theorem encode_text {l : Leader} (h : ∀ c ∈ l.chars, c.toNat < 0x80) :
    Utf8.encode l.text = l.bytes :=
  Utf8.encode_decodeLossy_ascii fun _ hb => lt_of_mem_bytes h hb

/-- What is left of a leader in its bytes. -/
def written (l : Leader) : Leader where
  recordLength := l.recordLength % 100000
  status := Char.ofNat (lowByte l.status).toNat
  recordType := Char.ofNat (lowByte l.recordType).toNat
  level := Char.ofNat (lowByte l.level).toNat
  controlType := Char.ofNat (lowByte l.controlType).toNat
  coding := Char.ofNat (lowByte l.coding).toNat
  indicatorCount := l.indicatorCount % 10
  subfieldCodeCount := l.subfieldCodeCount % 10
  baseAddress := l.baseAddress % 100000
  encodingLevel := Char.ofNat (lowByte l.encodingLevel).toNat
  catalogingForm := Char.ofNat (lowByte l.catalogingForm).toNat
  multipartLevel := Char.ofNat (lowByte l.multipartLevel).toNat
  entryMap := ⟨Char.ofNat (lowByte l.entryMap.lengthWidth).toNat,
    Char.ofNat (lowByte l.entryMap.offsetWidth).toNat,
    Char.ofNat (lowByte l.entryMap.implementationWidth).toNat,
    Char.ofNat (lowByte l.entryMap.undefined).toNat⟩

theorem written_eq_self {l : Leader} (h : l.Fits) : l.written = l := by
  have hchar {c : Char} (hc : c ∈ l.chars) : Char.ofNat (lowByte c).toNat = c :=
    charOfNat_lowByte (h.encodable.ascii c hc)
  have hlength : l.recordLength % 100000 = l.recordLength :=
    Nat.mod_eq_of_lt (Nat.lt_succ_of_le h.recordLength_le)
  have hbase : l.baseAddress % 100000 = l.baseAddress :=
    Nat.mod_eq_of_lt (Nat.lt_succ_of_le h.baseAddress_le)
  have hindicators : l.indicatorCount % 10 = l.indicatorCount :=
    Nat.mod_eq_of_lt (Nat.lt_succ_of_le h.encodable.indicatorCount_le)
  have hcodes : l.subfieldCodeCount % 10 = l.subfieldCodeCount :=
    Nat.mod_eq_of_lt (Nat.lt_succ_of_le h.encodable.subfieldCodeCount_le)
  unfold written
  rw [hlength, hbase, hindicators, hcodes, hchar (c := l.status) (by simp [chars]),
    hchar (c := l.recordType) (by simp [chars]), hchar (c := l.level) (by simp [chars]),
    hchar (c := l.controlType) (by simp [chars]), hchar (c := l.coding) (by simp [chars]),
    hchar (c := l.encodingLevel) (by simp [chars]), hchar (c := l.catalogingForm) (by simp [chars]),
    hchar (c := l.multipartLevel) (by simp [chars]), hchar (c := l.entryMap.lengthWidth) (by simp [chars]),
    hchar (c := l.entryMap.offsetWidth) (by simp [chars]),
    hchar (c := l.entryMap.implementationWidth) (by simp [chars]),
    hchar (c := l.entryMap.undefined) (by simp [chars])]

/-- What the bytes of a leader are read as. -/
theorem ofBytes_bytes_eq (l : Leader) (rest : Bytes) : ofBytes (l.bytes ++ rest) =
    if l.chars.all (lowByte · < 0x80) then .ok l.written
    else .error (.notAscii (Utf8.decodeLossy l.bytes)) := by
  have hhead : (l.bytes ++ rest).take 24 = l.bytes := List.take_left' (length_bytes l)
  have hfirst : l.bytes.take 5 = Decimal.digits 5 l.recordLength := rfl
  have hsecond : (l.bytes.drop 12).take 5 = Decimal.digits 5 l.baseAddress := rfl
  have hten : l.bytes.getD 10 0 = Decimal.digit l.indicatorCount := rfl
  have heleven : l.bytes.getD 11 0 = Decimal.digit l.subfieldCodeCount := rfl
  unfold ofBytes
  simp only [hhead, length_bytes, hfirst, hsecond, hten, heleven, number_digits, count_digit,
    all_bytes_ascii]
  cases l.chars.all (lowByte · < 0x80) with
  | true => rfl
  | false => rfl

theorem exists_ofBytes_bytes {l : Leader} :
    (∃ m, ofBytes l.bytes = .ok m) ↔ ∀ c ∈ l.chars, lowByte c < 0x80 := by
  have heq := ofBytes_bytes_eq l []
  rw [List.append_nil] at heq
  rw [heq, ← all_chars_ascii_iff]
  split
  · next h => exact ⟨fun _ => h, fun _ => ⟨_, rfl⟩⟩
  · next h => exact ⟨fun ⟨_, hm⟩ => (nomatch hm), fun hascii => absurd hascii h⟩

/-- A leader is read back from its bytes. -/
theorem ofBytes_bytes {l : Leader} (h : l.Encodable) (hlength : l.recordLength ≤ 99999)
    (hbase : l.baseAddress ≤ 99999) (rest : Bytes) : ofBytes (l.bytes ++ rest) = .ok l := by
  have hascii := all_chars_ascii_iff.2 fun c hc => lowByte_lt (h.ascii c hc)
  rw [ofBytes_bytes_eq, if_pos hascii, written_eq_self ⟨h, hlength, hbase⟩]

/-- What 24 ASCII bytes are read as. -/
theorem ofBytes_eq_ok {bs : Bytes} {l : Leader} (hlength : bs.length = 24)
    (hascii : bs.all (· < 0x80) = true) : ofBytes bs = .ok l ↔
      ∃ recordLength indicatorCount subfieldCodeCount baseAddress,
        number .recordLength (bs.take 5) = .ok recordLength ∧
        count .indicators (bs.getD 10 0) = .ok indicatorCount ∧
        count .subfieldCodes (bs.getD 11 0) = .ok subfieldCodeCount ∧
        number .baseAddress ((bs.drop 12).take 5) = .ok baseAddress ∧
        let char (i : Nat) : Char := Char.ofNat (bs.getD i 0).toNat
        l = {
          recordLength, indicatorCount, subfieldCodeCount, baseAddress
          status := char 5, recordType := char 6, level := char 7, controlType := char 8
          coding := char 9, encodingLevel := char 17, catalogingForm := char 18
          multipartLevel := char 19, entryMap := ⟨char 20, char 21, char 22, char 23⟩ } := by
  have hhead : bs.take 24 = bs := List.take_of_length_le (Nat.le_of_eq hlength)
  have hlong : ¬bs.length < 24 := Nat.not_lt.2 (Nat.le_of_eq hlength.symm)
  have hclean : ¬(!bs.all (· < 0x80)) = true := by simp [hascii]
  unfold ofBytes
  simp only [hhead, if_neg hlong, if_neg hclean]
  cases number .recordLength (bs.take 5) with
  | error e => simp [bind, Except.bind]
  | ok recordLength =>
    cases count .indicators (bs.getD 10 0) with
    | error e => simp [bind, Except.bind]
    | ok indicatorCount =>
      cases count .subfieldCodes (bs.getD 11 0) with
      | error e => simp [bind, Except.bind]
      | ok subfieldCodeCount =>
        cases number .baseAddress ((bs.drop 12).take 5) with
        | error e => simp [bind, Except.bind]
        | ok baseAddress => simp [bind, Except.bind, pure, Except.pure, eq_comm]

private theorem le_of_number {what : LeaderNumber} {bs : Bytes} {n : Nat} (hlength : bs.length ≤ 5)
    (h : number what bs = .ok n) : n ≤ 99999 := by
  unfold number at h
  split at h
  · next hvalue =>
    cases h
    have hlt := Decimal.lt_of_value? hvalue
    have hpow : Nat.pow 10 bs.length ≤ 10 ^ 5 := Nat.pow_le_pow_right (by decide) hlength
    omega
  · cases h

private theorem le_of_count {what : LeaderCount} {b : UInt8} {n : Nat} (h : count what b = .ok n) :
    n ≤ 9 := by
  unfold count at h
  split at h
  · next hdigit =>
    cases h
    simp only [isDigit, Bool.and_eq_true, decide_eq_true_eq, UInt8.le_iff_toNat_le] at hdigit
    have hle : b.toNat ≤ 0x39 := hdigit.2
    omega
  · cases h

private theorem toNat_charOfNat_lt {b : UInt8} (h : b < 0x80) : (Char.ofNat b.toNat).toNat < 0x80 := by
  have hlt : b.toNat < 0x80 := UInt8.lt_iff_toNat_lt.1 h
  rw [Utf8.toNat_charOfNat (Or.inl (Nat.lt_trans hlt (by decide)))]
  exact hlt

/-- Only the first 24 bytes count, and all of them are ASCII. -/
theorem ofBytes_take {bs : Bytes} {l : Leader} (h : ofBytes bs = .ok l) :
    (bs.take 24).length = 24 ∧ (bs.take 24).all (· < 0x80) = true ∧ ofBytes (bs.take 24) = .ok l := by
  by_cases hlength : (bs.take 24).length < 24
  · unfold ofBytes at h
    rw [if_pos hlength] at h
    cases h
  · have h24 : (bs.take 24).length = 24 := by
      have := List.length_take_le 24 bs
      omega
    have hsame : ofBytes bs = ofBytes (bs.take 24) := by
      unfold ofBytes
      simp only [List.take_take, Nat.min_self, if_neg hlength]
    by_cases hascii : (bs.take 24).all (· < 0x80) = true
    · exact ⟨h24, hascii, hsame ▸ h⟩
    · unfold ofBytes at h
      simp only [if_neg hlength, Bool.eq_false_iff.2 hascii] at h
      cases h

/-- A leader that was read can be written again as it is. -/
theorem fits_of_ofBytes {bs : Bytes} {l : Leader} (h : ofBytes bs = .ok l) : l.Fits := by
  obtain ⟨hlength, hascii, hhead⟩ := ofBytes_take h
  obtain ⟨recordLength, indicatorCount, subfieldCodeCount, baseAddress, hrecordLength, hindicators,
    hcodes, hbase, rfl⟩ := (ofBytes_eq_ok hlength hascii).1 hhead
  have hchar (i : Nat) : (Char.ofNat ((bs.take 24).getD i 0).toNat).toNat < 0x80 := by
    apply toNat_charOfNat_lt
    rw [List.getD_eq_getElem?_getD]
    cases hget : (bs.take 24)[i]? with
    | none => decide
    | some b => exact of_decide_eq_true (List.all_eq_true.1 hascii b (List.mem_of_getElem? hget))
  refine ⟨⟨?_, le_of_count hindicators, le_of_count hcodes⟩,
    le_of_number (List.length_take_le 5 _) hrecordLength, le_of_number (List.length_take_le 5 _) hbase⟩
  simp only [chars, List.forall_mem_cons, hchar, true_and]
  simp

theorem checkLengths_eq_ok {l : Leader} (hlength : 24 ≤ l.recordLength) (hbase : 24 ≤ l.baseAddress)
    (hle : l.baseAddress ≤ l.recordLength) : l.checkLengths = .ok () := by
  rw [checkLengths, if_neg (Nat.not_lt.2 hlength), if_neg (Nat.not_lt.2 hbase),
    if_neg (Nat.not_lt.2 hle)]
  rfl

theorem checkLengths_eq_ok_iff {l : Leader} :
    l.checkLengths = .ok () ↔ 24 ≤ l.baseAddress ∧ l.baseAddress ≤ l.recordLength := by
  constructor
  · intro h
    unfold checkLengths at h
    by_cases hlength : l.recordLength < 24
    · rw [if_pos hlength] at h
      cases h
    by_cases hbase : l.baseAddress < 24
    · rw [if_neg hlength, if_pos hbase] at h
      cases h
    by_cases hbeyond : l.baseAddress > l.recordLength
    · rw [if_neg hlength, if_neg hbase, if_pos hbeyond] at h
      cases h
    omega
  · rintro ⟨hbase, hle⟩
    exact checkLengths_eq_ok (Nat.le_trans hbase hle) hbase hle

end Leader

end Marc21
