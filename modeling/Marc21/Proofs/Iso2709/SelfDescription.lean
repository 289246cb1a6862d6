import Marc21.Proofs.Iso2709.Acceptance
import Marc21.Proofs.Record.LocalBlock

/-!
A physical record describes itself. Each number in it has a place of fixed width, and a number that takes more
digits would push all that comes behind it out of its place. No number of a part does, and the entries of a part cut
its data into the contents of its fields (`laid_entries`). So from its own bytes one can tell where everything in it
lies (`split_selfDescribing`).
-/

namespace Marc21.Iso2709

/-- Where an entry says its field lies, the terminator included. -/
def Entry.span (e : Entry) : Span := ⟨e.offset, e.offset + e.length⟩

/-- The bytes in a range. -/
def bytesIn (data : Bytes) (s : Span) : Bytes := (data.drop s.start).take (s.stop - s.start)

/-- A chunk of the given fields, with directory entries `es` and with `data` in front of its last byte: both
lengths are written out in the leader, each entry takes twelve bytes, and the spans of the entries lie side by side
in the data and hold the fields one after the other. -/
structure SelfDescribing (fields : List Field) (chunk : Bytes) (es : List Entry) (data : Bytes) : Prop where
  recordLength : chunk.take 5 = Decimal.padded 5 chunk.length
  baseAddress : (chunk.drop 12).take 5 = Decimal.padded 5 (24 + 12 * fields.length + 1)
  directory : (chunk.take (24 + 12 * fields.length + 1)).drop 24 =
    es.flatMap Entry.encode ++ [fieldTerminator]
  twelve : ∀ e ∈ es, e.encode.length = 12
  behind : chunk.drop (24 + 12 * fields.length + 1) = data ++ [recordTerminator]
  tiles : Tiles data.length 0 (es.map Entry.span)
  spans : List.Forall₂ (fun f e => e.tag = f.tag ∧
    bytesIn data e.span = Utf8.encode f.contents ++ [fieldTerminator]) fields es

/-! ## The entries -/

/-- The entries of fields that lie behind `before` go on from there to the end of the data. -/
theorem laid_entries (before : Bytes) (fs : List Field) :
    Tiles (before ++ fs.flatMap encodeField).length before.length
        ((entries before.length fs).map Entry.span) ∧
      List.Forall₂ (fun f e => e.tag = f.tag ∧
        bytesIn (before ++ fs.flatMap encodeField) e.span = encodeField f) fs (entries before.length fs) := by
  induction fs generalizing before with
  | nil =>
    rw [List.flatMap_nil, List.append_nil]
    exact ⟨.nil, .nil⟩
  | cons f fs ih =>
    have hrest := ih (before ++ encodeField f)
    have hstop : (before ++ encodeField f).length = before.length + (f.contents.utf8ByteSize + 1) := by
      rw [List.length_append, length_encodeField]
    rw [hstop, List.append_assoc, ← List.flatMap_cons] at hrest
    have hne : before.length < before.length + (f.contents.utf8ByteSize + 1) := by omega
    have hbytes : bytesIn (before ++ (f :: fs).flatMap encodeField)
        ⟨before.length, before.length + (f.contents.utf8ByteSize + 1)⟩ = encodeField f := by
      rw [bytesIn, List.drop_left, Nat.add_sub_cancel_left, List.flatMap_cons,
        List.take_left' (length_encodeField f)]
    exact ⟨.cons (s := ⟨before.length, _⟩) hne hrest.1, .cons ⟨rfl, hbytes⟩ hrest.2⟩

/-! ## The chunk -/

/-- A physical record is a front of known length and the data. -/
theorem encode_front (l : Leader) {fs : List Field} (hfits : ∀ e ∈ entries 0 fs, e.Fits) :
    let front := (physicalLeader l fs).bytes ++ ((entries 0 fs).flatMap Entry.encode ++ [fieldTerminator])
    encode l fs (exactSize fs) = front ++ (fs.flatMap encodeField ++ [recordTerminator]) ∧
      front.length = 24 + 12 * fs.length + 1 := by
  constructor
  · simp only [encode, physicalLeader, List.append_assoc]
  · rw [List.length_append, List.length_append, Leader.length_bytes, length_flatMap_encode hfits,
      length_entries, List.length_singleton, Nat.add_assoc]

/-- A chunk of fields that fit describes itself. -/
theorem selfDescribing_encode (l : Leader) {fs : List Field}
    (hfs : ∀ f ∈ fs, f.contents.utf8ByteSize ≤ contentsLimit) (hsize : exactSize fs < recordLimit) :
    SelfDescribing fs (encode l fs (exactSize fs)) (entries 0 fs) (fs.flatMap encodeField) := by
  have hbase := baseAddress_le fs
  have hlt : exactSize fs < 99999 := hsize
  have hfive : Nat.pow 10 5 = 100000 := rfl
  have hfits := fits_of_exactSize hfs (Nat.le_of_lt hlt)
  obtain ⟨hchunk, hfront⟩ := encode_front l hfits
  obtain ⟨htiles, hspans⟩ := laid_entries [] fs
  constructor
  case recordLength =>
    rw [length_encode l hfs (Nat.le_of_lt hlt), Decimal.padded_eq_digits (by decide) (by omega)]
    rfl
  case baseAddress =>
    rw [Decimal.padded_eq_digits (by decide) (by omega), Nat.mul_comm]
    rfl
  case directory =>
    rw [hchunk, List.take_left' hfront, List.drop_left' (Leader.length_bytes _)]
  case twelve => exact fun e he => Entry.length_encode (hfits e he)
  case behind => rw [hchunk, List.drop_left' hfront]
  case tiles => exact htiles
  case spans => exact hspans

/-! ## Main result -/

/-- **Every chunk of a record describes itself.** Whatever the record, each of the parts that it is split into is
written as a chunk of just the length that was counted for it, in which no number needs more digits than it has. -/
theorem split_selfDescribing {r : Record} {chunks : List Bytes} (h : split r = .ok chunks) :
    List.Forall₂ (fun p chunk => chunk.length = p.size ∧
      ∃ es data, SelfDescribing p.fields chunk es data) (parts r.fields) chunks := by
  obtain ⟨hlengths, rfl⟩ := split_eq_ok h
  have hdivides := parts_divides fun f hf => size_le_of_length_le (hlengths f hf)
  rw [List.forall₂_map_right_iff, List.forall₂_same]
  intro p hp
  obtain ⟨hsize, hlt⟩ := hdivides.sound p hp
  have hfields : ∀ f ∈ p.fields, f.contents.utf8ByteSize ≤ contentsLimit := fun f hf =>
    hlengths f (hdivides.mem_fields p hp f hf)
  rw [hsize] at hlt
  refine ⟨Part.length_encode (hdivides.sound p hp) hfields r.leader, ?_⟩
  rw [Part.encode, hsize]
  exact ⟨_, _, selfDescribing_encode r.leader hfields hlt⟩

/-- Twelve notes with the longest contents that an entry can give take more than one chunk. -/
theorem split_selfDescribing_withNotes : ∃ chunks, split (withNotes 12 9998) = .ok chunks ∧
    chunks.length ≠ 1 ∧ List.Forall₂ (fun p chunk => chunk.length = p.size ∧
      ∃ es data, SelfDescribing p.fields chunk es data) (parts (withNotes 12 9998).fields) chunks := by
  have hsplit := split_withNotes 12 (show 9998 ≤ contentsLimit by decide)
  have hdivides := parts_divides fun f hf => size_le_of_length_le ((split_eq_ok hsplit).1 f hf)
  refine ⟨_, hsplit, ?_, split_selfDescribing hsplit⟩
  rw [List.length_map, Ne, hdivides.length_eq_one_iff, ← size_eq_withNotes, size_withNotes]
  decide

end Marc21.Iso2709
