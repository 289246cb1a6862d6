import Marc21.Proofs.Iso2709.Physical

/-!
Reading a physical record where an index may lie outside and a number may grow too large. `parseChecked` takes
the steps of `parse` one by one and stops at the first slice that is not there and at the first number of more
than 32 bits. It never does (`parseChecked_eq`): what is checked of the leader and of an entry comes before the
slices that depend on it.
-/

namespace Marc21

/-! ## Steps that may stop -/

/-- A step that fails with an error or stops. -/
abbrev Checked (ε α : Type) := ExceptT ε Option α

/-- The bytes from `start` up to `stop`, if there are that many. -/
def slice? (bs : Bytes) (start stop : Nat) : Option Bytes :=
  if start ≤ stop ∧ stop ≤ bs.length then some ((bs.drop start).take (stop - start)) else none

/-- The byte at an index, if there is one. -/
def byte? (bs : Bytes) (i : Nat) : Option UInt8 := bs[i]?

/-- A number, if it has no more than 32 bits. -/
def word? (n : Nat) : Option Nat := if n < 2 ^ 32 then some n else none

theorem slice?_eq {bs : Bytes} {start stop : Nat} (hle : start ≤ stop) (hlength : stop ≤ bs.length) :
    slice? bs start stop = some ((bs.drop start).take (stop - start)) := if_pos ⟨hle, hlength⟩

theorem word?_eq {n : Nat} (h : n < 2 ^ 32) : word? n = some n := if_pos h

theorem byte?_eq {bs : Bytes} {i : Nat} (h : i < bs.length) : byte? bs i = some (bs.getD i 0) := by
  rw [byte?, List.getD_eq_getElem?_getD, List.getElem?_eq_getElem h, Option.getD_some]

namespace Checked

variable {ε α β : Type}

/-- The step does not stop and comes to this. -/
def Yields (x : Checked ε α) (y : Except ε α) : Prop := x.run = some y

theorem yields_pure (a : α) : Yields (pure a : Checked ε α) (.ok a) := rfl

theorem yields_throw (e : ε) : Yields (throw e : Checked ε α) (.error e) := rfl

/-- What comes next may rely on what the step came to. -/
theorem Yields.bind {x : Checked ε α} {y : Except ε α} (hx : x.Yields y) {f : α → Checked ε β}
    {g : α → Except ε β} (hf : ∀ a, y = .ok a → (f a).Yields (g a)) : (x >>= f).Yields (y >>= g) := by
  cases y with
  | error e =>
    have hx : x = some (.error e) := hx
    subst hx
    rfl
  | ok a =>
    have hx : x = some (.ok a) := hx
    subst hx
    exact hf a rfl

theorem yields_lift {o : Option α} {a : α} (ho : o = some a) : Yields (liftM o : Checked ε α) (.ok a) := by
  subst ho
  rfl

/-- A part that is there. -/
theorem yields_lift_bind {o : Option α} {a : α} (ho : o = some a) {f : α → Checked ε β} {y : Except ε β}
    (hf : (f a).Yields y) : ((liftM o : Checked ε α) >>= f).Yields y := by
  subst ho
  exact hf

theorem yields_mapM {f : α → Checked ε β} {g : α → Except ε β} {as : List α}
    (h : ∀ a ∈ as, (f a).Yields (g a)) : Yields (as.mapM f) (as.mapM g) := by
  induction as with
  | nil => rfl
  | cons a as ih =>
    obtain ⟨ha, has⟩ := List.forall_mem_cons.1 h
    rw [List.mapM_cons, List.mapM_cons]
    exact ha.bind fun _ _ => (ih has).bind fun _ _ => yields_pure _

end Checked

namespace Decimal

/-- Takes on the digits of a number one by one, from the value of those before. -/
def valueChecked (n : Nat) : Bytes → Option (Option Nat)
  | [] => some (some n)
  | b :: bs =>
    if isDigit b then do
      let tens ← word? (n * 10)
      let n ← word? (tens + (b.toNat - 0x30))
      valueChecked n bs
    else some none

/-- Up to nine digits make no more than 32 bits. -/
theorem valueChecked_spec {n k : Nat} (hn : n < 10 ^ k) {bs : Bytes} (h : k + bs.length ≤ 9) :
    valueChecked n bs = some (if bs.all isDigit then
      some (bs.foldl (fun n b => n * 10 + (b.toNat - 0x30)) n) else none) := by
  induction bs generalizing n k with
  | nil => rfl
  | cons b bs ih =>
    rw [List.length_cons] at h
    by_cases hb : isDigit b = true
    · have hdigit : b.toNat ≤ 0x39 := by
        simp only [isDigit, Bool.and_eq_true, decide_eq_true_eq, UInt8.le_iff_toNat_le] at hb
        exact hb.2
      have hnext : n * 10 + (b.toNat - 0x30) < 10 ^ (k + 1) := by
        rw [Nat.pow_succ]
        omega
      have hpow : 10 ^ (k + 1) ≤ 10 ^ 9 := Nat.pow_le_pow_right (by decide) (by omega)
      rw [valueChecked, if_pos hb, word?_eq (by omega)]
      simp only [Option.bind_eq_bind, Option.bind_some]
      rw [word?_eq (by omega), Option.bind_some, ih hnext (by omega), List.all_cons, hb, Bool.true_and,
        List.foldl_cons]
    · rw [valueChecked, if_neg hb, List.all_cons, Bool.eq_false_iff.2 hb]
      rfl

theorem valueChecked_eq {bs : Bytes} (h : bs.length ≤ 9) : valueChecked 0 bs = some (value? bs) :=
  valueChecked_spec (k := 0) Nat.one_pos (by omega)

end Decimal

namespace Leader

def numberChecked (what : LeaderNumber) (bs : Bytes) : Checked LeaderFault Nat := do
  match ← (Decimal.valueChecked 0 bs : Option (Option Nat)) with
  | some n => return n
  | none => throw (.notNumeric what (Utf8.decodeLossy bs))

def countChecked (what : LeaderCount) (bs : Bytes) (i : Nat) : Checked LeaderFault Nat := do
  let b ← byte? bs i
  if isDigit b then return b.toNat - 0x30 else throw (.notDigit what (Char.ofNat b.toNat))

def charChecked (bs : Bytes) (i : Nat) : Option Char := (byte? bs i).map fun b => Char.ofNat b.toNat

/-- The notices on a leader look at its last bytes too. -/
def ofBytesChecked (bs : Bytes) : Checked LeaderFault Leader := do
  if bs.length < 24 then throw (.short bs.length)
  let head ← slice? bs 0 24
  if !head.all (· < 0x80) then throw (.notAscii (Utf8.decodeLossy head))
  let recordLength ← numberChecked .recordLength (← slice? head 0 5)
  let indicatorCount ← countChecked .indicators head 10
  let subfieldCodeCount ← countChecked .subfieldCodes head 11
  let baseAddress ← numberChecked .baseAddress (← slice? head 12 17)
  let _ ← slice? head 20 23
  let _ ← slice? head 20 24
  return {
    recordLength, indicatorCount, subfieldCodeCount, baseAddress
    status := ← charChecked head 5, recordType := ← charChecked head 6, level := ← charChecked head 7
    controlType := ← charChecked head 8, coding := ← charChecked head 9
    encodingLevel := ← charChecked head 17, catalogingForm := ← charChecked head 18
    multipartLevel := ← charChecked head 19
    entryMap := ⟨← charChecked head 20, ← charChecked head 21, ← charChecked head 22, ← charChecked head 23⟩ }

open Checked

theorem yields_numberChecked {what : LeaderNumber} {bs : Bytes} (h : bs.length ≤ 9) :
    (numberChecked what bs).Yields (number what bs) := by
  refine yields_lift_bind (Decimal.valueChecked_eq h) ?_
  unfold number
  cases Decimal.value? bs with
  | some n => exact yields_pure n
  | none => exact yields_throw _

theorem yields_countChecked {what : LeaderCount} {bs : Bytes} {i : Nat} (h : i < bs.length) :
    (countChecked what bs i).Yields (count what (bs.getD i 0)) := by
  refine yields_lift_bind (byte?_eq h) ?_
  unfold count
  split
  · exact yields_pure _
  · exact yields_throw _

theorem charChecked_eq {bs : Bytes} {i : Nat} (h : i < bs.length) :
    charChecked bs i = some (Char.ofNat (bs.getD i 0).toNat) := by
  rw [charChecked, byte?_eq h, Option.map_some]

theorem yields_ofBytesChecked (bs : Bytes) : (ofBytesChecked bs).Yields (ofBytes bs) := by
  unfold ofBytesChecked ofBytes
  dsimp only
  by_cases hshort : bs.length < 24
  · have hhead : (bs.take 24).length < 24 := by
      rw [List.length_take]
      omega
    rw [if_pos hshort, if_pos hhead]
    exact yields_throw _
  · have hlength : (bs.take 24).length = 24 := by
      rw [List.length_take]
      omega
    have hslice : slice? bs 0 24 = some (bs.take 24) := slice?_eq (Nat.zero_le _) (Nat.not_lt.1 hshort)
    rw [if_neg hshort, if_neg (by omega)]
    refine yields_lift_bind hslice ?_
    generalize bs.take 24 = head at hlength ⊢
    split
    · exact yields_throw _
    · have hpart {start stop : Nat} (hle : start ≤ stop) (hstop : stop ≤ 24) :
          slice? head start stop = some ((head.drop start).take (stop - start)) :=
        slice?_eq hle (hlength ▸ hstop)
      have hfive (start : Nat) : ((head.drop start).take 5).length ≤ 9 := by
        rw [List.length_take]
        omega
      refine yields_lift_bind (hpart (by decide) (by decide)) ?_
      refine (yields_numberChecked (hfive 0)).bind fun recordLength _ => ?_
      refine (yields_countChecked (by omega)).bind fun indicatorCount _ => ?_
      refine (yields_countChecked (by omega)).bind fun subfieldCodeCount _ => ?_
      refine yields_lift_bind (hpart (by decide) (by decide)) ?_
      refine (yields_numberChecked (hfive 12)).bind fun baseAddress _ => ?_
      iterate 2 refine yields_lift_bind (hpart (by decide) (by decide)) ?_
      iterate 12 refine yields_lift_bind (charChecked_eq (by omega)) ?_
      exact yields_pure _

end Leader

namespace Iso2709

/-- The length of a part that ends before the first terminator in it, or at its own end. -/
def cutLength (bs : Bytes) : Nat := bs.findIdx (· == fieldTerminator)

def parseLeaderChecked (bs : Bytes) : Checked LeaderFault Leader := do
  let l ← Leader.ofBytesChecked bs
  (ExceptT.mk (some l.checkLengths) : Checked LeaderFault Unit)
  if l.recordLength > bs.length then throw (.recordBeyondInput l.recordLength bs.length)
  return l

def directoryChecked (l : Leader) (bs : Bytes) : Option Bytes := do
  let area ← slice? bs 24 (max (l.baseAddress - 1) 24)
  slice? area 0 (cutLength area)

def Entry.ofBytesChecked (bs : Bytes) : Checked DirectoryFault Entry := do
  match Tag.ofBytes? [← byte? bs 0, ← byte? bs 1, ← byte? bs 2] with
  | none => throw (.badTag (Utf8.decodeLossy (← slice? bs 0 3)))
  | some tag =>
    let length ← (Decimal.valueChecked 0 (← slice? bs 3 7) : Option (Option Nat))
    let offset ← (Decimal.valueChecked 0 (← slice? bs 7 12) : Option (Option Nat))
    match length, offset with
    | some length, some offset => return ⟨tag, length, offset⟩
    | _, _ => throw (.notNumeric (Utf8.decodeLossy bs))

def Entry.contentsChecked (e : Entry) (data : Bytes) : Checked DirectoryFault Bytes := do
  if e.length = 0 then throw (.outsideData e.tag e.offset e.length data.length)
  let stop ← word? (e.offset + e.length)
  if stop > data.length then throw (.outsideData e.tag e.offset e.length data.length)
  let span ← slice? data e.offset stop
  slice? span 0 (cutLength span)

def readFieldChecked (data : Bytes) (slice : Bytes) : Checked DirectoryFault Field := do
  let e ← Entry.ofBytesChecked slice
  let contents ← e.contentsChecked data
  return ⟨e.tag, Utf8.decodeLossy contents⟩

def parseFieldsChecked (l : Leader) (bs : Bytes) : Checked DirectoryFault (List Field) := do
  let data ← slice? bs l.baseAddress l.recordLength
  let dir ← directoryChecked l bs
  if dir.length % 12 ≠ 0 then throw (.ragged dir.length)
  (entrySlices (dir.length / 12) dir).mapM (readFieldChecked data)

/-- The size of a record, summed up field by field. -/
def exactSizeChecked (fields : List Field) : Option Nat := do
  let total ← fields.foldlM (fun n f => word? (n + f.size)) 0
  word? (26 + total)

def parseChecked (bs : Bytes) : Option (Except MarcError Record) := do
  match ← (parseLeaderChecked bs).run with
  | .error fault => return .error (.malformedLeader fault)
  | .ok l =>
    match ← (parseFieldsChecked l bs).run with
    | .error fault => return .error (.malformedDirectory fault)
    | .ok fields => return .ok (Record.sorted ⟨l, fields, ← exactSizeChecked fields⟩)

open Checked

theorem slice?_cutLength (bs : Bytes) :
    slice? bs 0 (cutLength bs) = some (bs.takeWhile (· != fieldTerminator)) := by
  have hcut : bs.takeWhile (· != fieldTerminator) = bs.take (cutLength bs) := by
    rw [List.takeWhile_eq_take_findIdx_not, cutLength]
    simp only [bne, Bool.not_not]
  rw [hcut]
  exact slice?_eq (Nat.zero_le _) List.findIdx_le_length

theorem yields_parseLeaderChecked (bs : Bytes) : (parseLeaderChecked bs).Yields (parseLeader bs) := by
  refine (Leader.yields_ofBytesChecked bs).bind fun l _ => ?_
  refine Yields.bind (x := ExceptT.mk (some l.checkLengths)) rfl fun _ _ => ?_
  split
  · exact yields_throw _
  · exact yields_pure _

/-- What is known of a leader once it was checked. -/
theorem parseLeader_eq_ok_iff {bs : Bytes} {l : Leader} : parseLeader bs = .ok l ↔
    Leader.ofBytes bs = .ok l ∧ 24 ≤ l.baseAddress ∧ l.baseAddress ≤ l.recordLength ∧
      l.recordLength ≤ bs.length := by
  unfold parseLeader
  cases Leader.ofBytes bs with
  | error e => simp [bind, Except.bind]
  | ok m =>
    simp only [bind, Except.bind, Except.ok.injEq]
    cases hcheck : m.checkLengths with
    | error e =>
      have hbad : ¬(24 ≤ m.baseAddress ∧ m.baseAddress ≤ m.recordLength) := by
        rw [← Leader.checkLengths_eq_ok_iff, hcheck]
        nofun
      simp only [reduceCtorEq, false_iff]
      rintro ⟨rfl, hbase, hle, _⟩
      exact hbad ⟨hbase, hle⟩
    | ok =>
      obtain ⟨hbase, hle⟩ := Leader.checkLengths_eq_ok_iff.1 hcheck
      dsimp only
      split
      · next hbeyond =>
        constructor
        · nofun
        · rintro ⟨rfl, _, _, hlength⟩
          omega
      · next hfits =>
        constructor
        · rintro ⟨⟩
          exact ⟨rfl, hbase, hle, Nat.not_lt.1 hfits⟩
        · rintro ⟨rfl, _⟩
          rfl

section

variable {bs : Bytes} {l : Leader}

theorem directoryChecked_eq (hbase : 24 ≤ l.baseAddress) (hle : l.baseAddress ≤ bs.length) :
    directoryChecked l bs = some (directory l bs) := by
  have harea : slice? bs 24 (max (l.baseAddress - 1) 24) =
      some ((bs.drop 24).take (l.baseAddress - 1 - 24)) := by
    rw [slice?_eq (Nat.le_max_right _ _) (by omega)]
    congr 2
    omega
  rw [directoryChecked, harea]
  exact slice?_cutLength _

theorem Entry.yields_ofBytesChecked {slice : Bytes} (h : slice.length = 12) :
    (ofBytesChecked slice).Yields (ofBytes slice) := by
  have hpart {start stop : Nat} (hle : start ≤ stop) (hstop : stop ≤ 12) :
      slice? slice start stop = some ((slice.drop start).take (stop - start)) :=
    slice?_eq hle (h ▸ hstop)
  have htag : [slice.getD 0 0, slice.getD 1 0, slice.getD 2 0] = slice.take 3 := by
    match slice, h with
    | _ :: _ :: _ :: _, _ => rfl
  have hlast : (slice.drop 7).take (12 - 7) = slice.drop 7 :=
    List.take_of_length_le (by rw [List.length_drop, h])
  have hfour : ((slice.drop 3).take (7 - 3)).length ≤ 9 :=
    (List.length_take_le _ _).trans (by decide)
  have hfive : (slice.drop 7).length ≤ 9 := by
    rw [List.length_drop]
    omega
  unfold ofBytesChecked ofBytes
  iterate 3 refine yields_lift_bind (byte?_eq (by omega)) ?_
  rw [htag]
  cases Tag.ofBytes? (slice.take 3) with
  | none => exact yields_lift_bind (hpart (by decide) (by decide)) (yields_throw _)
  | some tag =>
    refine yields_lift_bind (hpart (by decide) (by decide)) ?_
    refine yields_lift_bind (Decimal.valueChecked_eq hfour) ?_
    refine yields_lift_bind (hpart (by decide) (by decide)) ?_
    rw [hlast]
    refine yields_lift_bind (Decimal.valueChecked_eq hfive) ?_
    dsimp only
    cases Decimal.value? ((slice.drop 3).take 4) with
    | none => exact yields_throw _
    | some length =>
      cases Decimal.value? (slice.drop 7) with
      | none => exact yields_throw _
      | some offset => exact yields_pure _

theorem Entry.yields_contentsChecked {e : Entry} {data : Bytes} (hlength : e.length ≤ 9999)
    (hoffset : e.offset ≤ 99999) : (e.contentsChecked data).Yields (e.contents data.toArray) := by
  unfold contentsChecked contents
  by_cases hzero : e.length = 0
  · rw [if_pos hzero, if_pos (.inl hzero)]
    exact yields_throw _
  rw [if_neg hzero]
  refine yields_lift_bind (word?_eq (by omega)) ?_
  by_cases hlong : e.offset + e.length > data.length
  · rw [if_pos hlong, if_pos (.inr hlong)]
    exact yields_throw _
  rw [if_neg hlong, if_neg (by simpa [hzero] using hlong)]
  refine yields_lift_bind (slice?_eq (Nat.le_add_right _ _) (Nat.not_lt.1 hlong)) ?_
  rw [List.extract_toArray, List.extract_eq_take_drop]
  exact yields_lift (slice?_cutLength _)

/-- An entry that was read has numbers of four and five digits, so their sum is small. -/
theorem yields_readFieldChecked {data slice : Bytes} (h : slice.length = 12) :
    (readFieldChecked data slice).Yields (readField data.toArray slice) := by
  rw [readField_eq]
  refine (Entry.yields_ofBytesChecked h).bind fun e he => ?_
  obtain ⟨_, hlength, hoffset⟩ := (Entry.ofBytes_eq_ok_iff h).1 he
  exact (Entry.yields_contentsChecked hlength hoffset).bind fun _ _ => yields_pure _

theorem yields_parseFieldsChecked (hbase : 24 ≤ l.baseAddress) (hle : l.baseAddress ≤ l.recordLength)
    (hlength : l.recordLength ≤ bs.length) : (parseFieldsChecked l bs).Yields (parseFields l bs) := by
  refine yields_lift_bind (slice?_eq hle hlength) ?_
  refine yields_lift_bind (directoryChecked_eq hbase (Nat.le_trans hle hlength)) ?_
  unfold parseFields
  dsimp only
  split
  · exact yields_throw _
  · next hwhole =>
    have hcount : (directory l bs).length = 12 * ((directory l bs).length / 12) := by omega
    have hslices := (entrySlices_spec hcount).2.2
    exact yields_mapM fun slice hslice => yields_readFieldChecked (hslices slice hslice)

end

/-! ## The size of the record -/

theorem foldlM_size {fields : List Field} {n : Nat} (h : n + totalSize fields < 2 ^ 32) :
    fields.foldlM (fun n f => word? (n + f.size)) n = some (n + totalSize fields) := by
  induction fields generalizing n with
  | nil => rfl
  | cons f fields ih =>
    rw [totalSize_cons] at h ⊢
    rw [List.foldlM_cons, word?_eq (by omega), Option.bind_eq_bind, Option.bind_some, ih (by omega),
      Nat.add_assoc]

theorem exactSizeChecked_eq {fields : List Field} (h : exactSize fields < 2 ^ 32) :
    exactSizeChecked fields = some (exactSize fields) := by
  rw [exactSize] at h ⊢
  rw [exactSizeChecked, foldlM_size (by omega), Option.bind_eq_bind, Option.bind_some, Nat.zero_add]
  exact word?_eq h

/-- The contents of a field are part of the data. -/
theorem size_le_of_readField {data : Array UInt8} {slice : Bytes} {f : Field}
    (h : readField data slice = .ok f) : f.size ≤ 13 + 4 * data.size := by
  obtain ⟨e, contents, _, hcontents, rfl⟩ := readField_eq_ok_iff.1 h
  obtain ⟨_, _, rfl⟩ := Entry.contents_eq_ok_iff.1 hcontents
  generalize hspan : (data.toList.drop e.offset).take e.length = span
  have hsize := Utf8.utf8ByteSize_decodeLossy_le (span.takeWhile (· != fieldTerminator))
  have hcut := (List.takeWhile_prefix (· != fieldTerminator) (l := span)).length_le
  have hlength : span.length ≤ data.size := by
    rw [← hspan, List.length_take, List.length_drop, Array.length_toList]
    omega
  rw [Field.size]
  dsimp only
  omega

theorem totalSize_le {fields : List Field} {n : Nat} (h : ∀ f ∈ fields, f.size ≤ n) :
    totalSize fields ≤ fields.length * n := by
  induction fields with
  | nil => exact Nat.zero_le _
  | cons f fields ih =>
    obtain ⟨hf, hfields⟩ := List.forall_mem_cons.1 h
    have hrest := ih hfields
    rw [totalSize_cons, List.length_cons, Nat.succ_mul]
    omega

/-- A directory below a base address of five digits has room for some thousand fields, and none of them has
more contents than a record of five digits. -/
theorem exactSize_lt_of_parseFields {bs : Bytes} {l : Leader} {fields : List Field}
    (hbase : l.baseAddress ≤ 99999) (hlength : l.recordLength ≤ 99999)
    (h : parseFields l bs = .ok fields) : exactSize fields < 2 ^ 32 := by
  unfold parseFields at h
  dsimp only at h
  split at h
  · cases h
  · next hwhole =>
    have hcount : (directory l bs).length = 12 * ((directory l bs).length / 12) := by omega
    have hfields : fields.length ≤ 8331 := by
      have hdir : (directory l bs).length ≤ l.baseAddress - 1 - 24 := by
        have hcut := (List.takeWhile_prefix (· != fieldTerminator)
          (l := (bs.drop 24).take (l.baseAddress - 1 - 24))).length_le
        exact Nat.le_trans hcut (List.length_take_le _ _)
      have hlengths := (mapM_eq_ok_iff.1 h).length_eq
      rw [(entrySlices_spec hcount).2.1] at hlengths
      omega
    have hdata : (dataSegment l bs).size ≤ 99999 := by
      have htake := List.length_take_le (l.recordLength - l.baseAddress) (bs.drop l.baseAddress)
      rw [dataSegment, List.size_toArray]
      omega
    have hsizes : ∀ f ∈ fields, f.size ≤ 13 + 4 * 99999 := forall_of_mapM h fun slice f hf => by
      have hsize := size_le_of_readField hf
      omega
    have htotal := totalSize_le hsizes
    rw [exactSize]
    omega

/-! ## Main result -/

/-- **Reading a physical record never leaves its bounds.** -/
theorem parseChecked_eq (bs : Bytes) : parseChecked bs = some (parse bs) := by
  have hleader : (parseLeaderChecked bs).run = some (parseLeader bs) := yields_parseLeaderChecked bs
  unfold parseChecked parse
  rw [hleader]
  cases hl : parseLeader bs with
  | error fault => rfl
  | ok l =>
    obtain ⟨hread, hbase, hle, hlength⟩ := parseLeader_eq_ok_iff.1 hl
    have hfields : (parseFieldsChecked l bs).run = some (parseFields l bs) :=
      yields_parseFieldsChecked hbase hle hlength
    have hfits := Leader.fits_of_ofBytes hread
    simp only [Option.bind_eq_bind, Option.bind_some, hfields]
    cases hf : parseFields l bs with
    | error fault => rfl
    | ok fields =>
      have hsize := exactSizeChecked_eq
        (exactSize_lt_of_parseFields hfits.baseAddress_le hfits.recordLength_le hf)
      simp only [hsize]
      rfl

end Iso2709

end Marc21
