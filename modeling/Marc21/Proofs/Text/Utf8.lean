import Mathlib.Data.List.TakeWhile
import Marc21.Text.Utf8

/-!
Encoding and decoding are inverse: the pieces of an encoded text are its characters (`pieces_encode`),
so the lossy reading and the strict one both give the text back. A byte below `80` in an encoded text
is a character of its own (`mem_encode_iff`), and `length_encode` counts the bytes. Of any other bytes
decoding keeps at least that it shows no byte below `80` which is not there (`mem_of_mem_encode_decodeLossy`).
-/

namespace Marc21.Utf8

@[simp] theorem encode_append (s t : String) : encode (s ++ t) = encode s ++ encode t := by
  simp [encode]

@[simp] theorem encode_ofList (cs : List Char) : encode (String.ofList cs) = cs.flatMap encodeChar := by
  simp [encode]

theorem toNat_charOfNat {n : Nat} (h : n.isValidChar) : (Char.ofNat n).toNat = n := by
  rw [Char.ofNat, dif_pos h]
  rfl

theorem toNat_toUInt8 {n : Nat} (h : n < 256) : n.toUInt8.toNat = n := by
  rw [Nat.toUInt8, UInt8.toNat_ofNat']
  omega

/-! ## Length -/

private theorem utf8Size_eq (c : Char) : c.utf8Size =
    if c.toNat < 0x80 then 1 else if c.toNat < 0x800 then 2 else if c.toNat < 0x10000 then 3
    else 4 := by
  have h (n : UInt32) : c.val ≤ n ↔ c.toNat < n.toNat + 1 :=
    UInt32.le_iff_toNat_le.trans Nat.lt_succ_iff.symm
  simp only [Char.utf8Size, h]
  rfl

theorem length_encodeChar (c : Char) : (encodeChar c).length = c.utf8Size := by
  rw [utf8Size_eq]
  unfold encodeChar
  dsimp only
  split
  · rfl
  · split
    · rfl
    · split <;> rfl

theorem encodeChar_ne_nil (c : Char) : encodeChar c ≠ [] := by
  rw [← List.length_pos_iff, length_encodeChar]
  exact c.utf8Size_pos

private theorem length_flatMap_encodeChar (cs : List Char) :
    (cs.flatMap encodeChar).length = (String.ofList cs).utf8ByteSize := by
  induction cs with
  | nil => rfl
  | cons c cs ih =>
    rw [List.flatMap_cons, List.length_append, length_encodeChar, ih, String.ofList_cons,
      String.utf8ByteSize_append, String.utf8ByteSize_singleton]

@[simp] theorem length_encode (s : String) : (encode s).length = s.utf8ByteSize := by
  rw [encode, length_flatMap_encodeChar, String.ofList_toList]

theorem encode_eq_nil_iff {s : String} : encode s = [] ↔ s = "" := by
  rw [← List.length_eq_zero_iff, length_encode, String.utf8ByteSize_eq_zero_iff]

/-! ## ASCII bytes -/

theorem encodeChar_of_lt {c : Char} (h : c.toNat < 0x80) : encodeChar c = [c.toNat.toUInt8] := by
  simp only [encodeChar, if_pos h]

/-- Any other character takes several bytes. -/
theorem exists_encodeChar_of_le {c : Char} (h : 0x80 ≤ c.toNat) :
    ∃ b b' bs, encodeChar c = b :: b' :: bs := by
  unfold encodeChar
  dsimp only
  rw [if_neg (Nat.not_lt.2 h)]
  split
  · exact ⟨_, _, _, rfl⟩
  · split <;> exact ⟨_, _, _, rfl⟩

/-- A byte below `80` stands for itself. -/
theorem mem_encodeChar_iff {c : Char} {b : UInt8} (h : b.toNat < 0x80) :
    b ∈ encodeChar c ↔ c.toNat = b.toNat := by
  have hc : c.toNat < 0x110000 := by
    have := c.valid
    simp only [UInt32.isValidChar, Nat.isValidChar] at this
    change c.val.toNat < 0x110000
    omega
  constructor
  · intro hb
    unfold encodeChar at hb
    dsimp only at hb
    split at hb
    · rw [List.mem_singleton.1 hb, toNat_toUInt8 (by omega)]
    · split at hb
      · simp only [List.mem_cons, List.not_mem_nil, or_false] at hb
        rcases hb with rfl | rfl <;> rw [toNat_toUInt8 (by omega)] at h <;> omega
      · split at hb
        · simp only [List.mem_cons, List.not_mem_nil, or_false] at hb
          rcases hb with rfl | rfl | rfl <;> rw [toNat_toUInt8 (by omega)] at h <;> omega
        · simp only [List.mem_cons, List.not_mem_nil, or_false] at hb
          rcases hb with rfl | rfl | rfl | rfl <;> rw [toNat_toUInt8 (by omega)] at h <;> omega
  · intro hcb
    rw [encodeChar_of_lt (by omega), List.mem_singleton, ← UInt8.toNat_inj, toNat_toUInt8 (by omega),
      hcb]

theorem mem_encode_iff {s : String} {b : UInt8} (h : b.toNat < 0x80) :
    b ∈ encode s ↔ Char.ofNat b.toNat ∈ s.toList := by
  have hval : (Char.ofNat b.toNat).toNat = b.toNat :=
    toNat_charOfNat (Or.inl (Nat.lt_trans h (by decide)))
  rw [encode, List.mem_flatMap]
  constructor
  · rintro ⟨c, hc, hb⟩
    rw [← (mem_encodeChar_iff h).1 hb, Char.ofNat_toNat]
    exact hc
  · intro hc
    exact ⟨_, hc, (mem_encodeChar_iff h).2 hval⟩

/-! ## Decoding -/

private theorem step_last {done : List Piece} {q : Sequence} {n : Nat} (hq : q.further = 0)
    (hlow : q.low.toNat ≤ n) (hhigh : n ≤ q.high.toNat) :
    Scan.step ⟨done, some q⟩ n.toUInt8 =
      ⟨.scalar (Char.ofNat (q.value * 64 + n % 64)) :: done, none⟩ := by
  have hn : n.toUInt8.toNat = n := toNat_toUInt8 (by have := q.high.toNat_lt; omega)
  simp only [Scan.step, UInt8.le_iff_toNat_le, hn, hlow, hhigh, and_self, if_true, hq]

private theorem step_more {done : List Piece} {q : Sequence} {n more : Nat}
    (hq : q.further = more + 1) (hlow : q.low.toNat ≤ n) (hhigh : n ≤ q.high.toNat) :
    Scan.step ⟨done, some q⟩ n.toUInt8 =
      ⟨done, some ⟨more, 0x80, 0xBF, q.value * 64 + n % 64, q.seen + 1⟩⟩ := by
  have hn : n.toUInt8.toNat = n := toNat_toUInt8 (by have := q.high.toNat_lt; omega)
  simp only [Scan.step, UInt8.le_iff_toNat_le, hn, hlow, hhigh, and_self, if_true, hq]

private theorem step_opened {done : List Piece} {n : Nat} {q : Sequence} (hn : 0x80 ≤ n)
    (hlt : n < 256) (hq : opened n.toUInt8 = some q) :
    Scan.step ⟨done, none⟩ n.toUInt8 = ⟨done, some q⟩ := by
  have hb : ¬n.toUInt8 < 0x80 := by
    rw [UInt8.lt_iff_toNat_lt, toNat_toUInt8 hlt]
    exact Nat.not_lt.2 hn
  simp only [Scan.step, Scan.begin, if_neg hb, hq]

/-- The first byte of two gives the upper bits. -/
private theorem opened_two {n : Nat} (hlow : 0xC2 ≤ n) (hhigh : n < 0xE0) :
    opened n.toUInt8 = some ⟨0, 0x80, 0xBF, n - 0xC0, 1⟩ := by
  simp only [opened, toNat_toUInt8 (show n < 256 by omega)]
  rw [if_neg (by omega), if_pos hhigh]

/-- The first byte of three bounds the second, so that the value is no overlong form and no
surrogate. -/
private theorem opened_three {n m : Nat} (hn : n < 16) (hm : m < 64) (hlow : n = 0 → 32 ≤ m)
    (hhigh : n = 13 → m < 32) :
    ∃ q, opened (0xE0 + n).toUInt8 = some q ∧ q.further = 1 ∧ q.value = n ∧
      q.low.toNat ≤ 0x80 + m ∧ 0x80 + m ≤ q.high.toNat := by
  simp only [opened, toNat_toUInt8 (show 0xE0 + n < 256 by omega)]
  rw [if_neg (by omega), if_neg (by omega)]
  split
  · exact ⟨_, rfl, rfl, by dsimp only; omega, by simp; omega, by simp; omega⟩
  · split
    · exact ⟨_, rfl, rfl, by dsimp only; omega, by simp, by simp; omega⟩
    · rw [if_pos (by omega)]
      exact ⟨_, rfl, rfl, by dsimp only; omega, by simp, by simp; omega⟩

/-- The first byte of four bounds the second, so that the value is no overlong form and not too
large. -/
private theorem opened_four {n m : Nat} (hn : n < 5) (hm : m < 64) (hlow : n = 0 → 16 ≤ m)
    (hhigh : n = 4 → m < 16) :
    ∃ q, opened (0xF0 + n).toUInt8 = some q ∧ q.further = 2 ∧ q.value = n ∧
      q.low.toNat ≤ 0x80 + m ∧ 0x80 + m ≤ q.high.toNat := by
  simp only [opened, toNat_toUInt8 (show 0xF0 + n < 256 by omega)]
  rw [if_neg (by omega), if_neg (by omega), if_neg (by omega), if_neg (by omega), if_neg (by omega)]
  split
  · exact ⟨_, rfl, rfl, by dsimp only; omega, by simp; omega, by simp; omega⟩
  · split
    · exact ⟨_, rfl, rfl, by dsimp only; omega, by simp, by simp; omega⟩
    · rw [if_pos (by omega)]
      exact ⟨_, rfl, rfl, by dsimp only; omega, by simp, by simp; omega⟩

theorem foldl_step_encodeChar (done : List Piece) (c : Char) :
    (encodeChar c).foldl Scan.step ⟨done, none⟩ = ⟨.scalar c :: done, none⟩ := by
  have hvalid : c.toNat < 0xD800 ∨ 0xDFFF < c.toNat ∧ c.toNat < 0x110000 := c.valid
  unfold encodeChar
  dsimp only
  split
  · next h =>
    have hb : c.toNat.toUInt8 < 0x80 := by
      rw [UInt8.lt_iff_toNat_lt, toNat_toUInt8 (by omega)]
      exact h
    simp only [List.foldl_cons, List.foldl_nil, Scan.step, Scan.begin, if_pos hb,
      toNat_toUInt8 (show c.toNat < 256 by omega), Char.ofNat_toNat]
  · split
    · next h =>
      have hc : (0xC0 + c.toNat / 64 - 0xC0) * 64 + (0x80 + c.toNat % 64) % 64 = c.toNat := by omega
      rw [List.foldl_cons, step_opened (by omega) (by omega) (opened_two (by omega) (by omega)),
        List.foldl_cons, step_last rfl (by simp) (by simp; omega), List.foldl_nil, hc,
        Char.ofNat_toNat]
    · split
      · next h =>
        obtain ⟨q, hq, hfurther, hvalue, hlow, hhigh⟩ := opened_three (n := c.toNat / 4096)
          (m := c.toNat / 64 % 64) (by omega) (by omega) (by omega) (by omega)
        have hc : (q.value * 64 + (0x80 + c.toNat / 64 % 64) % 64) * 64 +
            (0x80 + c.toNat % 64) % 64 = c.toNat := by omega
        rw [List.foldl_cons, step_opened (by omega) (by omega) hq, List.foldl_cons,
          step_more hfurther hlow hhigh, List.foldl_cons, step_last rfl (by simp) (by simp; omega),
          List.foldl_nil, hc, Char.ofNat_toNat]
      · next h =>
        obtain ⟨q, hq, hfurther, hvalue, hlow, hhigh⟩ := opened_four (n := c.toNat / 262144)
          (m := c.toNat / 4096 % 64) (by omega) (by omega) (by omega) (by omega)
        have hc : ((q.value * 64 + (0x80 + c.toNat / 4096 % 64) % 64) * 64 +
            (0x80 + c.toNat / 64 % 64) % 64) * 64 + (0x80 + c.toNat % 64) % 64 = c.toNat := by omega
        rw [List.foldl_cons, step_opened (by omega) (by omega) hq, List.foldl_cons,
          step_more hfurther hlow hhigh, List.foldl_cons, step_more rfl (by simp) (by simp; omega),
          List.foldl_cons, step_last rfl (by simp) (by simp; omega), List.foldl_nil, hc,
          Char.ofNat_toNat]

private theorem foldl_step_flatMap (done : List Piece) (cs : List Char) :
    (cs.flatMap encodeChar).foldl Scan.step ⟨done, none⟩ =
      ⟨(cs.map Piece.scalar).reverse ++ done, none⟩ := by
  induction cs generalizing done with
  | nil => rfl
  | cons c cs ih =>
    rw [List.flatMap_cons, List.foldl_append, foldl_step_encodeChar, ih, List.map_cons,
      List.reverse_cons, List.append_assoc]
    rfl

/-- The pieces of an encoded text are its characters. -/
theorem pieces_encode (s : String) : pieces (encode s) = s.toList.map Piece.scalar := by
  rw [pieces, encode, Scan.start, foldl_step_flatMap, List.append_nil]
  exact List.reverse_reverse _

@[simp] theorem decodeLossy_encode (s : String) : decodeLossy (encode s) = s := by
  rw [decodeLossy, pieces_encode, List.map_map]
  change String.ofList (s.toList.map id) = s
  rw [List.map_id, String.ofList_toList]

theorem encode_injective {s t : String} (h : encode s = encode t) : s = t := by
  rw [← decodeLossy_encode s, h, decodeLossy_encode]

@[simp] theorem decode_encode (s : String) : decode (encode s) = .ok s := by
  have hall : ∀ p ∈ s.toList.map Piece.scalar, p.isScalar = true := by
    intro p hp
    obtain ⟨c, _, rfl⟩ := List.mem_map.1 hp
    rfl
  simp only [decode, pieces_encode, List.takeWhile_eq_self_iff.2 hall,
    List.dropWhile_eq_nil_iff.2 hall]
  rw [List.map_map]
  change Except.ok (String.ofList (s.toList.map id)) = _
  rw [List.map_id, String.ofList_toList]

/-- ASCII bytes are the bytes of a text of the same characters. -/
theorem encode_ofList_ascii {bs : Bytes} (h : ∀ b ∈ bs, b < 0x80) :
    encode (String.ofList (bs.map fun b => Char.ofNat b.toNat)) = bs := by
  rw [encode_ofList]
  induction bs with
  | nil => rfl
  | cons b bs ih =>
    obtain ⟨hb, hbs⟩ := List.forall_mem_cons.1 h
    have hlt : b.toNat < 0x80 := UInt8.lt_iff_toNat_lt.1 hb
    have hval : (Char.ofNat b.toNat).toNat = b.toNat :=
      toNat_charOfNat (Or.inl (Nat.lt_trans hlt (by decide)))
    have hchar : encodeChar (Char.ofNat b.toNat) = [b] := by
      have hascii : (Char.ofNat b.toNat).toNat < 0x80 := by omega
      rw [encodeChar_of_lt hascii, hval]
      exact congrArg (fun c => [c]) (UInt8.ofNat_toNat)
    rw [List.map_cons, List.flatMap_cons, hchar, ih hbs]
    rfl

theorem encode_decodeLossy_ascii {bs : Bytes} (h : ∀ b ∈ bs, b < 0x80) :
    encode (decodeLossy bs) = bs := by
  have htext := encode_ofList_ascii h
  rw [← htext, decodeLossy_encode]

/-! ## Bytes that lossy decoding leaves -/

/-- A sequence that cannot end in a value below `80`, whichever bytes carry it on. -/
def Sequence.Long (q : Sequence) : Prop :=
  ∀ b, q.low ≤ b → b ≤ q.high →
    (if q.further = 0 then 0x80 else if q.further = 1 then 2 else 1) ≤ q.value * 64 + b.toNat % 64

private theorem long_of_opened {b : UInt8} {q : Sequence} (h : opened b = some q) : q.Long := by
  intro d hlow hhigh
  unfold opened at h
  rw [UInt8.le_iff_toNat_le] at hlow hhigh
  dsimp only at h
  split at h
  · cases h
  · split at h
    · cases h
      simp only [if_true] at hlow hhigh ⊢
      omega
    · repeat' split at h
      all_goals cases h
      all_goals
        simp at hlow hhigh ⊢
        omega

/-- Scalar values below `80` come from bytes that were read, except that a value which is no scalar is taken
for zero. -/
structure Scan.Honest (bs : Bytes) (s : Scan) : Prop where
  scalars : ∀ c, .scalar c ∈ s.read → c.toNat = 0 ∨ 0x80 ≤ c.toNat ∨ c.toNat.toUInt8 ∈ bs
  pending : ∀ q ∈ s.pending, q.Long

private theorem toNat_charOfNat_or (n : Nat) : (Char.ofNat n).toNat = 0 ∨ (Char.ofNat n).toNat = n := by
  by_cases h : n.isValidChar
  · exact .inr (toNat_charOfNat h)
  · left
    rw [Char.ofNat, dif_neg h]
    rfl

private theorem begin_honest {bs : Bytes} {done : List Piece} (b : UInt8)
    (h : ∀ c, .scalar c ∈ done → c.toNat = 0 ∨ 0x80 ≤ c.toNat ∨ c.toNat.toUInt8 ∈ bs) :
    Scan.Honest (bs ++ [b]) (Scan.begin done b) := by
  have hdone : ∀ c, .scalar c ∈ done → c.toNat = 0 ∨ 0x80 ≤ c.toNat ∨ c.toNat.toUInt8 ∈ bs ++ [b] :=
    fun c hc => (h c hc).imp_right (Or.imp_right (List.mem_append_left [b]))
  unfold Scan.begin
  split
  · refine ⟨fun c hc => ?_, by simp⟩
    rcases List.mem_cons.1 hc with heq | hc
    · cases heq
      rcases toNat_charOfNat_or b.toNat with hzero | hsame
      · exact .inl hzero
      · exact .inr (.inr (by simp [hsame]))
    · exact hdone c hc
  · split
    · next q hq =>
      refine ⟨hdone, ?_⟩
      rintro _ ⟨⟩
      exact long_of_opened hq
    · exact ⟨fun c hc => hdone c (by simpa using hc), by simp⟩

private theorem step_honest {bs : Bytes} {s : Scan} (h : s.Honest bs) (b : UInt8) :
    Scan.Honest (bs ++ [b]) (s.step b) := by
  have hread : ∀ c, .scalar c ∈ s.read → c.toNat = 0 ∨ 0x80 ≤ c.toNat ∨ c.toNat.toUInt8 ∈ bs ++ [b] :=
    fun c hc => (h.scalars c hc).imp_right (Or.imp_right (List.mem_append_left [b]))
  unfold Scan.step
  split
  · exact begin_honest b h.scalars
  · next q hq =>
    have hlong := h.pending q hq
    split
    · next hin =>
      have hvalue := hlong b hin.1 hin.2
      dsimp only
      split
      · next hlast =>
        rw [if_pos hlast] at hvalue
        refine ⟨fun c hc => ?_, by simp⟩
        rcases List.mem_cons.1 hc with heq | hc
        · cases heq
          rcases toNat_charOfNat_or (q.value * 64 + b.toNat % 64) with hzero | hsame
          · exact .inl hzero
          · exact .inr (.inl (by rw [hsame]; exact hvalue))
        · exact hread c hc
      · next more hmore =>
        refine ⟨hread, ?_⟩
        rintro _ ⟨⟩ d hlow hhigh
        rw [hmore] at hvalue
        rw [if_neg (Nat.succ_ne_zero more)] at hvalue
        dsimp only
        split
        · next hzero =>
          rw [if_pos (by omega)] at hvalue
          omega
        · have hpos : 1 ≤ q.value * 64 + b.toNat % 64 := by
            split at hvalue <;> omega
          split <;> omega
    · exact begin_honest b fun c hc => h.scalars c (by simpa using hc)

/-- Lossy decoding shows no byte below `80` that was not there. -/
theorem mem_of_mem_encode_decodeLossy {bs : Bytes} {b : UInt8} (hpos : b.toNat ≠ 0) (hlt : b.toNat < 0x80)
    (h : b ∈ encode (decodeLossy bs)) : b ∈ bs := by
  have hfold : ∀ (rest done : Bytes) (s : Scan), s.Honest done →
      (rest.foldl Scan.step s).Honest (done ++ rest) := by
    intro rest
    induction rest with
    | nil => simp
    | cons b rest ih =>
      intro done s hs
      rw [List.foldl_cons, List.append_cons]
      exact ih _ _ (step_honest hs b)
  have hscan := hfold bs [] Scan.start ⟨by simp [Scan.start], by simp [Scan.start]⟩
  rw [List.nil_append] at hscan
  rw [mem_encode_iff hlt, decodeLossy, String.toList_ofList, List.mem_map] at h
  obtain ⟨p, hp, hchar⟩ := h
  have hvalue : p.char.toNat = b.toNat := by
    rw [hchar, toNat_charOfNat (Or.inl (Nat.lt_trans hlt (by decide)))]
  cases p with
  | scalar c =>
    have hread : .scalar c ∈ (bs.foldl Scan.step Scan.start).read := by
      unfold pieces Scan.finish at hp
      split at hp <;> simpa using hp
    have hc : c.toNat = b.toNat := hvalue
    rcases hscan.scalars c hread with hzero | hlarge | hmem
    · omega
    · omega
    · rwa [hc, show b.toNat.toUInt8 = b from UInt8.ofNat_toNat] at hmem
  | illFormed n =>
    have hlarge : 0x80 ≤ (Piece.illFormed n).char.toNat := show 0x80 ≤ '\uFFFD'.toNat by decide
    omega
  | cutShort n =>
    have hlarge : 0x80 ≤ (Piece.cutShort n).char.toNat := show 0x80 ≤ '\uFFFD'.toNat by decide
    omega

/-! ## Size of what is decoded -/

/-- The pieces that a scan has come to, the open one included. -/
def Scan.count (s : Scan) : Nat := s.read.length + if s.pending.isSome then 1 else 0

private theorem count_begin_le (done : List Piece) (b : UInt8) :
    (Scan.begin done b).count ≤ done.length + 1 := by
  unfold Scan.begin Scan.count
  split
  · simp
  · split <;> simp

/-- One more byte makes one more piece at most. -/
theorem count_step_le (s : Scan) (b : UInt8) : (s.step b).count ≤ s.count + 1 := by
  unfold Scan.step
  split
  · next hnone =>
    refine Nat.le_trans (count_begin_le s.read b) ?_
    simp [Scan.count, hnone]
  · next q hq =>
    have hcount : s.count = s.read.length + 1 := by simp [Scan.count, hq]
    rw [hcount]
    split
    · dsimp only
      split <;> simp [Scan.count]
    · exact count_begin_le _ b

theorem length_pieces_le (bs : Bytes) : (pieces bs).length ≤ bs.length := by
  have hfold : ∀ (rest : Bytes) (s : Scan), (rest.foldl Scan.step s).count ≤ s.count + rest.length := by
    intro rest
    induction rest with
    | nil => exact fun s => Nat.le_refl _
    | cons b rest ih =>
      intro s
      have hlater := ih (s.step b)
      have hstep := count_step_le s b
      rw [List.foldl_cons, List.length_cons]
      omega
  have hlength : (pieces bs).length = (bs.foldl Scan.step Scan.start).count := by
    unfold pieces Scan.finish Scan.count
    split
    · next hnone => simp [hnone]
    · next q hq => simp [hq]
  have hstart : Scan.start.count = 0 := rfl
  have hscan := hfold bs Scan.start
  omega

/-- No byte is decoded to more than one character. -/
theorem utf8ByteSize_decodeLossy_le (bs : Bytes) : (decodeLossy bs).utf8ByteSize ≤ 4 * bs.length := by
  have hchars (cs : List Char) : (cs.flatMap encodeChar).length ≤ 4 * cs.length := by
    induction cs with
    | nil => exact Nat.le_refl 0
    | cons c cs ih =>
      have hsize := c.utf8Size_le_four
      rw [List.flatMap_cons, List.length_append, length_encodeChar, List.length_cons]
      omega
  have hpieces := length_pieces_le bs
  have hdecoded := hchars ((pieces bs).map Piece.char)
  rw [List.length_map, ← encode_ofList, length_encode] at hdecoded
  rw [decodeLossy]
  omega

end Marc21.Utf8
