import Mathlib.Data.List.Forall2
import Mathlib.Data.List.TakeWhile
import Marc21.Iso2709.Physical
import Marc21.Proofs.Leader
import Marc21.Proofs.Record.Order

/-!
A number that is too large for its place in a directory entry takes more digits, and all that comes behind it is out of
its place. If the fields fit their entries no number does (`encode_eq_slot`), and a physical record is as long as its
fields make it (`length_encode`). Then each field is found where its entry points, up to the first terminator in it
(`parseFields_encode`), and the leader is read if its bytes are ASCII (`parseLeader_encode`). So `parse` gives fields
without a terminator back in record order (`parse_encode`).
-/

namespace Marc21

/-- A field that a physical record can give back: a directory entry can hold its length, and no
terminator ends it early. -/
structure Field.Storable (f : Field) : Prop where
  length_le : f.contents.utf8ByteSize ≤ 9998
  clean : Iso2709.fieldTerminator ∉ Utf8.encode f.contents

/-- What a physical record gives back of a field: the contents up to the first terminator. -/
def Field.cut (f : Field) : Field :=
  { f with contents := String.ofList (f.contents.toList.takeWhile (· ≠ '\x1E')) }

namespace Iso2709

/-! ## Lengths -/

/-- An entry whose numbers have no more digits than their places. -/
structure Entry.Fits (e : Entry) : Prop where
  length_le : e.length ≤ 9999
  offset_le : e.offset ≤ 99999

/-- An entry with each number in its place. -/
def Entry.slot (e : Entry) : Bytes :=
  e.tag.bytes ++ Decimal.digits 4 e.length ++ Decimal.digits 5 e.offset

theorem Entry.encode_eq_slot {e : Entry} (h : e.Fits) : e.encode = e.slot := by
  rw [encode, slot, Decimal.padded_eq_digits (by decide) (Nat.lt_succ_of_le h.length_le),
    Decimal.padded_eq_digits (by decide) (Nat.lt_succ_of_le h.offset_le)]

theorem Entry.length_encode {e : Entry} (h : e.Fits) : e.encode.length = 12 := by
  rw [encode_eq_slot h]
  simp [slot]

@[simp] theorem length_entries (offset : Nat) (fs : List Field) :
    (entries offset fs).length = fs.length := by
  induction fs generalizing offset with
  | nil => rfl
  | cons f fs ih => rw [entries, List.length_cons, ih, List.length_cons]

theorem length_flatMap_encode {es : List Entry} (h : ∀ e ∈ es, e.Fits) :
    (es.flatMap Entry.encode).length = 12 * es.length := by
  induction es with
  | nil => rfl
  | cons e es ih =>
    obtain ⟨he, hes⟩ := List.forall_mem_cons.1 h
    rw [List.flatMap_cons, List.length_append, Entry.length_encode he, ih hes, List.length_cons]
    omega

@[simp] theorem length_encodeField (f : Field) :
    (encodeField f).length = f.contents.utf8ByteSize + 1 := by
  simp [encodeField]

/-- Twelve bytes of each field lie in the directory and the others in the data. -/
theorem totalSize_eq (fs : List Field) :
    totalSize fs = 12 * fs.length + (fs.flatMap encodeField).length := by
  induction fs with
  | nil => rfl
  | cons f fs ih =>
    rw [totalSize_cons, ih, List.flatMap_cons, List.length_append, length_encodeField,
      List.length_cons, Field.size]
    omega

/-- Fields that are short enough have entries that fit, as far as the data goes. -/
theorem fits_entries {fs : List Field} (hfs : ∀ f ∈ fs, f.contents.utf8ByteSize ≤ 9998) {offset : Nat}
    (hsize : offset + (fs.flatMap encodeField).length ≤ 99999) : ∀ e ∈ entries offset fs, e.Fits := by
  induction fs generalizing offset with
  | nil => simp [entries]
  | cons f fs ih =>
    obtain ⟨hf, hfs⟩ := List.forall_mem_cons.1 hfs
    rw [List.flatMap_cons, List.length_append, length_encodeField] at hsize
    rw [entries, List.forall_mem_cons]
    exact ⟨⟨Nat.succ_le_succ hf, by dsimp only; omega⟩, ih hfs (by omega)⟩

theorem fits_of_exactSize {fs : List Field} (hfs : ∀ f ∈ fs, f.contents.utf8ByteSize ≤ 9998)
    (hsize : exactSize fs ≤ 99999) : ∀ e ∈ entries 0 fs, e.Fits := by
  rw [exactSize, totalSize_eq] at hsize
  exact fits_entries hfs (by omega)

theorem length_encode (l : Leader) {fs : List Field} (hfs : ∀ f ∈ fs, f.contents.utf8ByteSize ≤ 9998)
    (hsize : exactSize fs ≤ 99999) (n : Nat) : (encode l fs n).length = exactSize fs := by
  simp only [encode, List.length_append, Leader.length_bytes, length_flatMap_encode (fits_of_exactSize hfs hsize),
    length_entries, List.length_singleton, exactSize, totalSize_eq]
  omega

/-! ## The directory -/

theorem Entry.ofBytes_encode {e : Entry} (h : e.Fits) : Entry.ofBytes e.encode = .ok e := by
  have htag : e.slot.take 3 = e.tag.bytes := rfl
  have hfour : (e.slot.drop 3).take 4 = Decimal.digits 4 e.length := rfl
  have hfive : e.slot.drop 7 = Decimal.digits 5 e.offset := rfl
  simp only [encode_eq_slot h, Entry.ofBytes, htag, Tag.ofBytes?_bytes, hfour, hfive,
    Decimal.value?_digits_of_lt 4 (Nat.lt_succ_of_le h.length_le),
    Decimal.value?_digits_of_lt 5 (Nat.lt_succ_of_le h.offset_le)]

/-- Twelve bytes are read as an entry exactly if that is how it is written. -/
theorem Entry.ofBytes_eq_ok_iff {bs : Bytes} (h : bs.length = 12) {e : Entry} :
    Entry.ofBytes bs = .ok e ↔ bs = e.encode ∧ e.Fits := by
  constructor
  · intro hread
    unfold Entry.ofBytes at hread
    split at hread
    · cases hread
    · next tag htag =>
      split at hread
      · next length offset hlength hoffset =>
        cases hread
        have hfour : ((bs.drop 3).take 4).length = 4 := by
          rw [List.length_take, List.length_drop, h]
          rfl
        have hfive : (bs.drop 7).length = 5 := by rw [List.length_drop, h]
        have hlengthlt := Decimal.lt_of_value? hlength
        have hoffsetlt := Decimal.lt_of_value? hoffset
        have hlengthdigits := Decimal.digits_of_value? hlength
        have hoffsetdigits := Decimal.digits_of_value? hoffset
        rw [hfour] at hlengthlt hlengthdigits
        rw [hfive] at hoffsetlt hoffsetdigits
        have hfits : Entry.Fits ⟨tag, length, offset⟩ :=
          ⟨Nat.le_of_lt_succ hlengthlt, Nat.le_of_lt_succ hoffsetlt⟩
        refine ⟨?_, hfits⟩
        rw [encode_eq_slot hfits, slot, Tag.bytes_of_ofBytes? htag, hlengthdigits, hoffsetdigits,
          List.append_assoc]
        calc bs = bs.take 3 ++ bs.drop 3 := (List.take_append_drop 3 bs).symm
          _ = bs.take 3 ++ ((bs.drop 3).take 4 ++ (bs.drop 3).drop 4) := by
            rw [List.take_append_drop 4]
          _ = bs.take 3 ++ ((bs.drop 3).take 4 ++ bs.drop 7) := by rw [List.drop_drop]
      · cases hread
  · rintro ⟨rfl, hfits⟩
    exact Entry.ofBytes_encode hfits

/-- No byte of a directory is a terminator. -/
theorem Entry.ne_terminator {e : Entry} (hfits : e.Fits) {b : UInt8} (h : b ∈ e.encode) :
    b ≠ fieldTerminator := by
  have hdigits {width n : Nat} (h : b ∈ Decimal.digits width n) : b ≠ fieldTerminator := by
    rintro rfl
    have := List.all_eq_true.1 (Decimal.all_isDigit_digits width n) _ h
    exact absurd this (by decide)
  simp only [encode_eq_slot hfits, slot, List.mem_append] at h
  rcases h with (h | h) | h
  · rintro rfl
    have hgraphic := e.tag.graphic
    simp only [Bool.and_eq_true] at hgraphic
    simp only [Tag.bytes, List.mem_cons, List.not_mem_nil, or_false] at h
    obtain ⟨⟨hfirst, hsecond⟩, hthird⟩ := hgraphic
    rcases h with h | h | h
    · rw [← h] at hfirst
      exact absurd hfirst (by decide)
    · rw [← h] at hsecond
      exact absurd hsecond (by decide)
    · rw [← h] at hthird
      exact absurd hthird (by decide)
  · exact hdigits h
  · exact hdigits h

theorem entrySlices_flatMap {es : List Entry} (h : ∀ e ∈ es, e.Fits) :
    entrySlices es.length (es.flatMap Entry.encode) = es.map Entry.encode := by
  induction es with
  | nil => rfl
  | cons e es ih =>
    obtain ⟨he, hes⟩ := List.forall_mem_cons.1 h
    rw [List.length_cons, entrySlices, List.flatMap_cons, List.take_left' (Entry.length_encode he),
      List.drop_left' (Entry.length_encode he), ih hes, List.map_cons]

theorem entrySlices_spec {count : Nat} {bs : Bytes} (h : bs.length = 12 * count) :
    (entrySlices count bs).flatten = bs ∧ (entrySlices count bs).length = count ∧
      ∀ slice ∈ entrySlices count bs, slice.length = 12 := by
  induction count generalizing bs with
  | zero => exact ⟨(List.length_eq_zero_iff.1 h).symm, rfl, by simp [entrySlices]⟩
  | succ count ih =>
    have hrest : (bs.drop 12).length = 12 * count := by
      rw [List.length_drop]
      omega
    obtain ⟨hflatten, hcount, hslices⟩ := ih hrest
    rw [entrySlices, List.flatten_cons, hflatten, List.take_append_drop, List.length_cons, hcount,
      List.forall_mem_cons, List.length_take]
    exact ⟨rfl, rfl, by omega, hslices⟩

/-- A sequence of steps that all went well, by what each of them gave. -/
theorem mapM_eq_ok_iff {ε α β : Type} {f : α → Except ε β} {as : List α} {bs : List β} :
    as.mapM f = .ok bs ↔ List.Forall₂ (fun a b => f a = .ok b) as bs := by
  induction as generalizing bs with
  | nil =>
    rw [List.forall₂_nil_left_iff]
    exact ⟨fun h => (Except.ok.inj h).symm, fun h => h ▸ rfl⟩
  | cons a as ih =>
    rw [List.mapM_cons, List.forall₂_cons_left_iff]
    simp only [← ih]
    cases f a with
    | error e => simp [bind, Except.bind]
    | ok b =>
      cases as.mapM f with
      | error e => simp [bind, Except.bind]
      | ok rest => simp [bind, Except.bind, pure, Except.pure, eq_comm]

/-- What every step gives is true of all results. -/
theorem forall_of_mapM {ε α β : Type} {f : α → Except ε β} {as : List α} {bs : List β} {p : β → Prop}
    (h : as.mapM f = .ok bs) (hp : ∀ a b, f a = .ok b → p b) : ∀ b ∈ bs, p b := by
  induction mapM_eq_ok_iff.1 h with
  | nil => simp
  | cons hab _ ih => exact List.forall_mem_cons.2 ⟨hp _ _ hab, ih (mapM_eq_ok_iff.2 ‹_›)⟩

/-! ## The data -/

/-- The data has to hold all bytes of the entry, and there has to be one at least. -/
theorem Entry.contents_eq_ok_iff {e : Entry} {data : Array UInt8} {contents : Bytes} :
    e.contents data = .ok contents ↔ 1 ≤ e.length ∧ e.offset + e.length ≤ data.size ∧
      contents = ((data.toList.drop e.offset).take e.length).takeWhile (· != fieldTerminator) := by
  have hspan : (data.extract e.offset (e.offset + e.length)).toList =
      (data.toList.drop e.offset).take e.length := by
    rw [Array.toList_extract, List.extract_eq_take_drop, Nat.add_sub_cancel_left]
  unfold Entry.contents
  rw [hspan]
  split
  · next hout =>
    constructor
    · nofun
    · rintro ⟨hpos, hle, _⟩
      omega
  · next hin =>
    rw [Except.ok.injEq, eq_comm]
    exact ⟨fun h => ⟨by omega, by omega, h⟩, fun h => h.2.2⟩

theorem readField_eq {data : Array UInt8} {slice : Bytes} : readField data slice = (do
    let e ← Entry.ofBytes slice
    let contents ← e.contents data
    return ⟨e.tag, Utf8.decodeLossy contents⟩) := by
  unfold readField rawField
  cases Entry.ofBytes slice with
  | error fault => rfl
  | ok e =>
    simp only [bind, Except.bind]
    cases e.contents data <;> rfl

theorem readField_eq_ok_iff {data : Array UInt8} {slice : Bytes} {f : Field} :
    readField data slice = .ok f ↔ ∃ e contents, Entry.ofBytes slice = .ok e ∧
      e.contents data = .ok contents ∧ f = ⟨e.tag, Utf8.decodeLossy contents⟩ := by
  rw [readField_eq]
  cases Entry.ofBytes slice with
  | error fault => simp [bind, Except.bind]
  | ok e =>
    cases hcontents : e.contents data with
    | error fault => simp [bind, Except.bind, hcontents]
    | ok contents => simp [bind, Except.bind, pure, Except.pure, hcontents, eq_comm]

private theorem takeWhile_flatMap_encodeChar (cs : List Char) (rest : Bytes) :
    (cs.flatMap Utf8.encodeChar ++ fieldTerminator :: rest).takeWhile (· != fieldTerminator) =
      (cs.takeWhile (· ≠ '\x1E')).flatMap Utf8.encodeChar := by
  induction cs with
  | nil => exact List.takeWhile_cons_of_neg (by simp)
  | cons c cs ih =>
    by_cases hc : c = '\x1E'
    · have hbytes : Utf8.encodeChar c = [fieldTerminator] := by
        rw [hc]
        decide
      rw [List.takeWhile_cons_of_neg (by simp [hc]), List.flatMap_cons, hbytes, List.append_assoc,
        List.singleton_append, List.takeWhile_cons_of_neg (by simp)]
      rfl
    · rw [List.takeWhile_cons_of_pos (by simp [hc]), List.flatMap_cons, List.flatMap_cons,
        List.append_assoc, List.takeWhile_append_of_pos, ih]
      intro b hb
      refine bne_iff_ne.2 fun hterm => hc ?_
      subst hterm
      have hval := (Utf8.mem_encodeChar_iff (b := fieldTerminator) (by decide)).1 hb
      rw [← Char.ofNat_toNat c, hval]
      rfl

private theorem takeWhile_encodeField (f : Field) :
    (encodeField f).takeWhile (· != fieldTerminator) = Utf8.encode f.cut.contents := by
  rw [Field.cut, Utf8.encode_ofList]
  exact takeWhile_flatMap_encodeChar _ []

/-- A field is cut short exactly if there is a terminator in it. -/
theorem cut_eq_self_iff {f : Field} : f.cut = f ↔ fieldTerminator ∉ Utf8.encode f.contents := by
  have hmem : fieldTerminator ∈ Utf8.encode f.contents ↔ '\x1E' ∈ f.contents.toList :=
    Utf8.mem_encode_iff (b := fieldTerminator) (by decide)
  have hcontents : f.cut = f ↔ f.contents.toList.takeWhile (· ≠ '\x1E') = f.contents.toList := by
    constructor
    · intro h
      have := congrArg (fun g : Field => g.contents.toList) h
      simpa only [Field.cut, String.toList_ofList] using this
    · intro h
      rw [Field.cut, h, String.ofList_toList]
  rw [hcontents, hmem, List.takeWhile_eq_self_iff]
  constructor
  · intro h hc
    exact of_decide_eq_true (h _ hc) rfl
  · intro h c hc
    exact decide_eq_true fun heq => h (heq ▸ hc)

/-- An entry that points behind `before` finds the field that lies there. -/
theorem rawField_encode {f : Field} (hf : f.contents.utf8ByteSize ≤ 9998) {before after : Bytes}
    (hoffset : before.length ≤ 99999) :
    rawField (before ++ encodeField f ++ after).toArray
      (Entry.encode ⟨f.tag, f.contents.utf8ByteSize + 1, before.length⟩) =
        .ok (f.tag, Utf8.encode f.cut.contents) := by
  have hentry : Entry.ofBytes
      (Entry.encode ⟨f.tag, f.contents.utf8ByteSize + 1, before.length⟩) =
        .ok ⟨f.tag, f.contents.utf8ByteSize + 1, before.length⟩ :=
    Entry.ofBytes_encode ⟨Nat.succ_le_succ hf, hoffset⟩
  have hslice : ((before ++ encodeField f ++ after).toArray.extract before.length
      (before.length + (f.contents.utf8ByteSize + 1))).toList = encodeField f := by
    rw [List.extract_toArray, List.extract_eq_take_drop, List.append_assoc,
      List.drop_left, Nat.add_sub_cancel_left]
    exact List.take_left' (length_encodeField f)
  have hfits : ¬(f.contents.utf8ByteSize + 1 = 0 ∨ before.length + (f.contents.utf8ByteSize + 1) >
      (before ++ encodeField f ++ after).toArray.size) := by
    simp only [List.size_toArray, List.length_append, length_encodeField]
    omega
  simp only [rawField, hentry, bind, Except.bind, Entry.contents, if_neg hfits, hslice,
    takeWhile_encodeField]
  rfl

/-- The entries of fields that lie one after the other behind `before` find them all. -/
theorem mapM_readField {fs : List Field} (hfs : ∀ f ∈ fs, f.contents.utf8ByteSize ≤ 9998)
    (before after : Bytes) (hsize : (before ++ fs.flatMap encodeField).length ≤ 99999) :
    ((entries before.length fs).map Entry.encode).mapM
      (readField (before ++ fs.flatMap encodeField ++ after).toArray) = .ok (fs.map Field.cut) := by
  induction fs generalizing before with
  | nil => rfl
  | cons f fs ih =>
    have hoffset : before.length ≤ 99999 := by
      rw [List.length_append] at hsize
      omega
    have hdata : before ++ (f :: fs).flatMap encodeField ++ after =
        before ++ encodeField f ++ (fs.flatMap encodeField ++ after) := by
      simp only [List.flatMap_cons, List.append_assoc]
    have hfirst : readField (before ++ (f :: fs).flatMap encodeField ++ after).toArray
        (Entry.encode ⟨f.tag, f.contents.utf8ByteSize + 1, before.length⟩) = .ok f.cut := by
      rw [hdata, readField, rawField_encode (hfs f List.mem_cons_self) hoffset]
      simp only [bind, Except.bind, pure, Except.pure, Utf8.decodeLossy_encode]
      rfl
    have hrest := ih (fun g hg => hfs g (List.mem_cons_of_mem f hg)) (before ++ encodeField f)
      (by simpa using hsize)
    rw [List.append_assoc (before ++ encodeField f), ← hdata, List.length_append,
      length_encodeField] at hrest
    rw [entries, List.map_cons, List.mapM_cons, hfirst]
    simp only [bind, Except.bind, hrest]
    rfl

/-! ## The whole record -/

/-- The leader that a physical record of the given fields gets. -/
def physicalLeader (l : Leader) (fs : List Field) : Leader :=
  { l with recordLength := exactSize fs, baseAddress := 24 + fs.length * 12 + 1 }

@[simp] theorem physicalLeader_recordLength (l : Leader) (fs : List Field) :
    (physicalLeader l fs).recordLength = exactSize fs := rfl

@[simp] theorem physicalLeader_baseAddress (l : Leader) (fs : List Field) :
    (physicalLeader l fs).baseAddress = 24 + fs.length * 12 + 1 := rfl

private theorem encode_eq (l : Leader) (fs : List Field) :
    encode l fs (exactSize fs) = (physicalLeader l fs).bytes ++ ((entries 0 fs).flatMap Entry.encode ++
      (fieldTerminator :: (fs.flatMap encodeField ++ [recordTerminator]))) := by
  simp only [encode, physicalLeader, List.append_assoc, List.cons_append, List.nil_append]

private theorem directory_encode {l m : Leader} {fs : List Field} (hfits : ∀ e ∈ entries 0 fs, e.Fits)
    (hbase : m.baseAddress = 24 + fs.length * 12 + 1) :
    directory m (encode l fs (exactSize fs)) = (entries 0 fs).flatMap Entry.encode := by
  have hlen : ((entries 0 fs).flatMap Entry.encode).length = m.baseAddress - 1 - 24 := by
    rw [length_flatMap_encode hfits, length_entries, hbase]
    omega
  rw [directory, encode_eq, List.drop_left' (Leader.length_bytes _), List.take_left' hlen,
    List.takeWhile_eq_self_iff]
  intro b hb
  obtain ⟨e, he, hb⟩ := List.mem_flatMap.1 hb
  exact bne_iff_ne.2 (Entry.ne_terminator (hfits e he) hb)

private theorem dataSegment_encode {l m : Leader} {fs : List Field} (hfits : ∀ e ∈ entries 0 fs, e.Fits)
    (hlength : m.recordLength = exactSize fs) (hbase : m.baseAddress = 24 + fs.length * 12 + 1) :
    dataSegment m (encode l fs (exactSize fs)) =
      (fs.flatMap encodeField ++ [recordTerminator]).toArray := by
  have hfront : ((physicalLeader l fs).bytes ++ ((entries 0 fs).flatMap Entry.encode ++
      [fieldTerminator])).length = m.baseAddress := by
    simp only [hbase, List.length_append, Leader.length_bytes, length_flatMap_encode hfits,
      length_entries, List.length_singleton]
    omega
  have hback : (fs.flatMap encodeField ++ [recordTerminator]).length =
      m.recordLength - m.baseAddress := by
    rw [List.length_append, List.length_singleton, hlength, hbase, exactSize, totalSize_eq]
    omega
  have hsplit : encode l fs (exactSize fs) = (physicalLeader l fs).bytes ++
      ((entries 0 fs).flatMap Entry.encode ++ [fieldTerminator]) ++
        (fs.flatMap encodeField ++ [recordTerminator]) := by
    simp only [encode_eq, List.append_assoc, List.singleton_append]
  rw [dataSegment, hsplit, List.drop_left' hfront, List.take_of_length_le (Nat.le_of_eq hback)]

/-- The entries give the fields up to their terminators, whatever else the leader says. -/
theorem parseFields_encode {l m : Leader} {fs : List Field}
    (hfs : ∀ f ∈ fs, f.contents.utf8ByteSize ≤ 9998) (hsize : exactSize fs ≤ 99999)
    (hlength : m.recordLength = exactSize fs) (hbase : m.baseAddress = 24 + fs.length * 12 + 1) :
    parseFields m (encode l fs (exactSize fs)) = .ok (fs.map Field.cut) := by
  have hfits := fits_of_exactSize hfs hsize
  have hdir := length_flatMap_encode hfits
  have hdata : ([] ++ fs.flatMap encodeField : Bytes).length ≤ 99999 := by
    rw [exactSize, totalSize_eq] at hsize
    rw [List.nil_append]
    omega
  have hread := mapM_readField hfs [] [recordTerminator] hdata
  rw [parseFields, directory_encode hfits hbase, dataSegment_encode hfits hlength hbase, hdir, Nat.mul_mod_right,
    if_neg (by simp), Nat.mul_div_cancel_left _ (by decide), entrySlices_flatMap hfits]
  exact hread

/-- The data begins within the record. -/
theorem baseAddress_le (fs : List Field) : 24 + fs.length * 12 + 1 ≤ exactSize fs := by
  rw [exactSize, totalSize_eq]
  omega

/-- Both lengths of a physical record have five digits. -/
theorem written_physicalLeader (l : Leader) {fs : List Field} (hsize : exactSize fs ≤ 99999) :
    (physicalLeader l fs).written = physicalLeader l.written fs := by
  have hbase := baseAddress_le fs
  simp only [physicalLeader, Leader.written, Nat.mod_eq_of_lt (show exactSize fs < 100000 by omega),
    Nat.mod_eq_of_lt (show 24 + fs.length * 12 + 1 < 100000 by omega)]

theorem ofBytes_encode (l : Leader) {fs : List Field} (hsize : exactSize fs ≤ 99999) :
    Leader.ofBytes (encode l fs (exactSize fs)) = if l.chars.all (Leader.lowByte · < 0x80)
      then .ok (physicalLeader l.written fs)
      else .error (.notAscii (Utf8.decodeLossy (physicalLeader l fs).bytes)) := by
  have hchars : (physicalLeader l fs).chars = l.chars := rfl
  rw [encode_eq, Leader.ofBytes_bytes_eq, hchars, written_physicalLeader l hsize]

/-- The leader of a physical record is read if it is ASCII. -/
theorem parseLeader_encode {l : Leader} {fs : List Field} (hfs : ∀ f ∈ fs, f.contents.utf8ByteSize ≤ 9998)
    (hsize : exactSize fs ≤ 99999) (hl : ∀ c ∈ l.chars, Leader.lowByte c < 0x80) :
    parseLeader (encode l fs (exactSize fs)) = .ok (physicalLeader l.written fs) := by
  have hbase := baseAddress_le fs
  have hlengths : (physicalLeader l.written fs).checkLengths = .ok () :=
    Leader.checkLengths_eq_ok (show 24 ≤ exactSize fs by omega)
      (show 24 ≤ 24 + fs.length * 12 + 1 by omega) hbase
  have hfits : ¬(physicalLeader l.written fs).recordLength > (encode l fs (exactSize fs)).length := by
    rw [length_encode l hfs hsize]
    exact Nat.lt_irrefl _
  rw [parseLeader, ofBytes_encode l hsize, if_pos (Leader.all_chars_ascii_iff.2 hl)]
  simp only [bind, Except.bind, hlengths, if_neg hfits]
  rfl

/-- **What a physical record is read as**, if its leader is ASCII. -/
theorem parse_encode_cut {l : Leader} {fs : List Field} (hl : ∀ c ∈ l.chars, Leader.lowByte c < 0x80)
    (hfs : ∀ f ∈ fs, f.contents.utf8ByteSize ≤ 9998) (hsize : exactSize fs ≤ 99999) :
    parse (encode l fs (exactSize fs)) =
      .ok (Record.ofParts (physicalLeader l.written fs) (fs.map Field.cut)).sorted := by
  have hfields := parseFields_encode (l := l) (m := physicalLeader l.written fs) hfs hsize rfl rfl
  simp only [parse, parseLeader_encode hfs hsize hl, hfields]

/-- **A physical record is read back.** -/
theorem parse_encode {l : Leader} {fs : List Field} (hl : l.Encodable)
    (hfs : ∀ f ∈ fs, f.Storable) (hsize : exactSize fs ≤ 99999) :
    parse (encode l fs (exactSize fs)) =
      .ok (Record.ofParts (physicalLeader l fs) fs).sorted := by
  have hbase := baseAddress_le fs
  have hascii : ∀ c ∈ l.chars, Leader.lowByte c < 0x80 := fun c hc => Leader.lowByte_lt (hl.ascii c hc)
  have hleader : physicalLeader l.written fs = physicalLeader l fs := by
    rw [← written_physicalLeader l hsize]
    exact Leader.written_eq_self
      ⟨⟨hl.ascii, hl.indicatorCount_le, hl.subfieldCodeCount_le⟩, hsize, Nat.le_trans hbase hsize⟩
  have hcut : fs.map Field.cut = fs := by
    rw [List.map_congr_left fun f hf => cut_eq_self_iff.2 (hfs f hf).clean, List.map_id']
  rw [parse_encode_cut hascii (fun f hf => (hfs f hf).length_le) hsize, hleader, hcut]

end Iso2709

end Marc21
