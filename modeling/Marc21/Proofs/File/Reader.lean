import Marc21.File.Reader
import Marc21.Proofs.File.Tree
import Marc21.Proofs.Iso2709.Rewriting

/-!
Opening a file to read. Its format depends on its content and its name alone (`openReader_of_find`). What
counts of a file of physical records is the status and the type of the first one (`ofOpening?_of_holds`), so it
stays binary when its records are written again.
-/

namespace Marc21

open Iso2709 (Holds)

/-! ## Opening -/

namespace FileTree

/-- The format of a file: the one that its content tells, or else its name. -/
def formatOf? (path : String) (content : Bytes) : Option RecordFormat :=
  (RecordFormat.ofOpening? (content.take RecordFormat.openingLength)).or (RecordFormat.ofExtension? path)

section

variable {t : FileTree} {path : String} {id : FileId}

theorem openReader_of_find (h : t.find path = .ok (.file id)) : (t.openReader path none).1 =
    match formatOf? path (t.bytes id).toList with
    | some f => .ok (.ofNode path (.file id) f)
    | none => .error (.unsupportedFileType (.unknown path)) := by
  have hhas : t.has path = true := by rw [has, h]; rfl
  have hstart : ((t.bytes id).extract 0 RecordFormat.openingLength).toList =
      (t.bytes id).toList.take RecordFormat.openingLength := by simp
  simp only [openReader, guessFormat, formatInside?, hhas, read_of_find h, hstart, formatOf?, openAs, h]
  cases RecordFormat.ofOpening? ((t.bytes id).toList.take RecordFormat.openingLength) with
  | some f => rfl
  | none =>
    simp only [formatByName, Option.none_or]
    cases RecordFormat.ofExtension? path <;> rfl

/-- What can be opened to read without a format is a file. -/
theorem openReader_eq_ok {source : FileReader} (h : (t.openReader path none).1 = .ok source) :
    ∃ id f, t.find path = .ok (.file id) ∧ formatOf? path (t.bytes id).toList = some f ∧
      source = .ofNode path (.file id) f := by
  cases hfind : t.find path with
  | error failure =>
    have hhas : t.has path = false := by rw [has, hfind]; rfl
    simp only [openReader, guessFormat, formatInside?, hhas, openAs, hfind] at h
    cases hname : formatByName path <;> simp [hname] at h
  | ok node =>
    cases node with
    | folder =>
      have hhas : t.has path = true := by rw [has, hfind]; rfl
      have hread : t.read path = .error isAFolder := by rw [read, hfind]; rfl
      simp [openReader, guessFormat, formatInside?, hhas, hread] at h
    | file id =>
      rw [openReader_of_find hfind] at h
      cases hformat : formatOf? path (t.bytes id).toList with
      | none => simp [hformat] at h
      | some f =>
        rw [hformat] at h
        exact ⟨id, f, rfl, hformat, (Except.ok.inj h).symm⟩

/-- A reader at the start of a file reads the bytes that the file has now. -/
theorem current_ofNode (t : FileTree) (path : String) (id : FileId) : ∃ source : Source,
    (FileReader.ofNode path (.file id) .binary).current t = .binary (.ofSource source) ∧
      source.Steady ∧ source.upcoming = (t.bytes id).toList :=
  ⟨_, rfl, rfl, rfl⟩

/-- It reads the same in a tree in which the file has the same bytes. -/
theorem current_congr {u : FileTree} (f : RecordFormat) (h : u.bytes id = t.bytes id) :
    (FileReader.ofNode path (.file id) f).current u = (FileReader.ofNode path (.file id) f).current t := by
  have hbytes : (FileReader.ofNode path (.file id) f).bytes u =
      (FileReader.ofNode path (.file id) f).bytes t := h
  rw [FileReader.current, FileReader.current, hbytes]

end

end FileTree

/-! ## Telling the format -/

private theorem take_eight {bs : Bytes} (h : 8 ≤ bs.length) :
    bs.take 8 = bs.take 5 ++ [bs.getD 5 0, bs.getD 6 0, bs.getD 7 0] := by
  match bs, h with
  | _ :: _ :: _ :: _ :: _ :: _ :: _ :: _ :: _, _ => rfl

private theorem ofOpening?_digits {digits : Bytes} {status type level : UInt8} (hlength : digits.length = 5)
    (hdigits : digits.all isDigit = true) (htype : type < 0x80) (hlevel : level < 0x80) :
    RecordFormat.ofOpening? (digits ++ [status, type, level]) =
      if (Utf8.encode (statusesOf (Char.ofNat type.toNat))).contains status then some .binary else none := by
  have hhead : (digits ++ [status, type, level]).head? ≠ some 0x3C := by
    cases digits with
    | nil => cases hlength
    | cons d digits =>
      rintro ⟨⟩
      cases hdigits
  have hpieces : Utf8.pieces [type, level] =
      [.scalar (Char.ofNat type.toNat), .scalar (Char.ofNat level.toNat)] := by
    simp [Utf8.pieces, Utf8.Scan.start, Utf8.Scan.step, Utf8.Scan.begin, Utf8.Scan.finish, htype, hlevel]
  have hsix : (digits ++ [status, type, level]).drop 6 = [type, level] := by
    rw [List.drop_append, hlength, List.drop_of_length_le (by omega)]
    rfl
  unfold RecordFormat.ofOpening?
  rw [if_neg hhead]
  simp only [List.take_left' hlength, List.drop_left' hlength, hsix, hpieces, hdigits, true_and]

/-- A file of physical records is recognised by the status and the type of the first one. -/
theorem ofOpening?_of_holds {bs : Bytes} {first : Record} {parts : List Record}
    (h : Holds bs (first :: parts)) : RecordFormat.ofOpening? (bs.take RecordFormat.openingLength) =
      if (Utf8.encode (statusesOf first.leader.recordType)).contains (Leader.lowByte first.leader.status)
      then some .binary else none := by
  cases h with
  | @cons bs rest _ _ whole later =>
    obtain ⟨l, hleader, hfirst⟩ : ∃ l, Leader.ofBytes bs = .ok l ∧ first.leader = l := by
      have hparse := whole.parse_eq
      unfold Iso2709.parse at hparse
      split at hparse
      · cases hparse
      · next l hl =>
        refine ⟨l, Iso2709.ofBytes_of_parseLeader hl, ?_⟩
        split at hparse
        · cases hparse
        · cases hparse
          rfl
    obtain ⟨hlength, hascii, hhead⟩ := Leader.ofBytes_take hleader
    obtain ⟨_, _, _, _, _, _, _, _, hl⟩ := (Leader.ofBytes_eq_ok hlength hascii).1 hhead
    have hlong := Iso2709.Reader.le_of_recordLength? whole.length_eq
    have hget (i : Nat) (hi : i < 24) : (bs ++ rest).getD i 0 = (bs.take 24).getD i 0 := by
      simp only [List.getD_eq_getElem?_getD]
      rw [List.getElem?_append_left (by omega), List.getElem?_take_of_lt hi]
    have hsmall (i : Nat) (hi : i < 24) : (bs.take 24).getD i 0 < 0x80 := by
      rw [List.getD_eq_getElem?_getD, List.getElem?_eq_getElem (by omega)]
      exact of_decide_eq_true (List.all_eq_true.1 hascii _ (List.getElem_mem _))
    have hdigits : ((bs ++ rest).take 5).all isDigit = true := by
      rw [List.take_append_of_le_length (by omega)]
      obtain ⟨hvalue, _⟩ := Option.filter_eq_some_iff.1 whole.length_eq
      unfold Decimal.value? at hvalue
      split at hvalue
      · assumption
      · cases hvalue
    rw [RecordFormat.openingLength, take_eight (by rw [List.length_append]; omega),
      hget 5 (by decide), hget 6 (by decide), hget 7 (by decide),
      ofOpening?_digits (by rw [List.length_take, List.length_append]; omega) hdigits
        (hsmall 6 (by decide)) (hsmall 7 (by decide)), hfirst, hl]
    simp only [Leader.lowByte_charOfNat]

/-! ## Files of records -/

section

variable {kept : List Record}

/-- A file that records were written to is told by the status and the type of the first one. -/
theorem ofOpening?_encodeAll_cons {r : Record} (hkept : ∀ s ∈ r :: kept, s.Storable) :
    RecordFormat.ofOpening? ((Iso2709.Reader.encodeAll (r :: kept)).take RecordFormat.openingLength) =
      if (Utf8.encode (statusesOf r.leader.recordType)).contains (Leader.lowByte r.leader.status)
      then some .binary else none := by
  have hholds := Iso2709.Reader.holds_encodeAll hkept
  obtain ⟨p, ps, hparts⟩ : ∃ p ps, Iso2709.parts r.fields = p :: ps := by
    unfold Iso2709.parts
    split <;> exact ⟨_, _, rfl⟩
  rw [Iso2709.physicals, List.flatMap_cons, hparts, List.map_cons, List.cons_append] at hholds
  rw [ofOpening?_of_holds hholds]
  rfl

/-- As long as the first record stays, a file of records is told from others as before. -/
theorem ofOpening?_encodeAll {bs : Bytes} {parts : List Record} (h : Holds bs parts)
    (hkept : ∀ r ∈ kept, r.Storable) (hfirst : kept.head? = (Iso2709.grouped none parts).head?) :
    RecordFormat.ofOpening? ((Iso2709.Reader.encodeAll kept).take RecordFormat.openingLength) =
      RecordFormat.ofOpening? (bs.take RecordFormat.openingLength) := by
  cases parts with
  | nil =>
    cases h
    rw [List.head?_eq_none_iff.1 hfirst]
    rfl
  | cons first parts =>
    have hleader := Iso2709.leader_head?_grouped first parts
    rw [← show Iso2709.grouped none (first :: parts) = Iso2709.grouped (some first) parts from rfl,
      ← hfirst] at hleader
    cases kept with
    | nil => cases hleader
    | cons r kept => rw [ofOpening?_encodeAll_cons hkept, ofOpening?_of_holds h, ← Option.some.inj hleader]

/-- A file that records were written to is read as these records. -/
theorem FileTree.readAll_ofNode {t : FileTree} {id : FileId} (path : String)
    (hbytes : t.bytes id = (Iso2709.Reader.encodeAll kept).toArray) (hkept : ∀ r ∈ kept, r.Storable)
    (hdiffer : kept.IsChain fun r s => r.controlNumber? ≠ s.controlNumber?) :
    ((FileReader.ofNode path (.file id) .binary).current t).readAll.result =
      .ok (kept.map Iso2709.readBack) := by
  obtain ⟨source, hcurrent, hsteady, hup⟩ := current_ofNode t path id
  rw [hcurrent]
  exact Iso2709.readAll_of_upcoming hsteady hkept hdiffer (by rw [hup, hbytes])

end

end Marc21
