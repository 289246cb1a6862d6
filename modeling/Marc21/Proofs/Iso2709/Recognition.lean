import Marc21.Proofs.Iso2709.Rewriting
import Marc21.Proofs.Iso2709.Session
import Marc21.Proofs.Record.Checksum

/-!
Checksums of records that went through a file. A checksum covers the whole leader, and with it the record length
and the base address, which writing sets to those of the first physical record. So what comes back has the
checksum that the record would have with these two numbers in it (`checksum_readBack`). A record that came out
of a file has them already, and is written as the same bytes again.
-/

namespace Marc21

namespace Decimal

/-- Only the last digits are written. -/
theorem digits_eq_iff {width m n : Nat} :
    digits width m = digits width n ↔ m % Nat.pow 10 width = n % Nat.pow 10 width := by
  constructor
  · intro h
    rw [← value_digits, ← value_digits, h]
  · intro h
    rw [← value_digits, ← value_digits] at h
    have hm := digits_value (all_isDigit_digits width m)
    have hn := digits_value (all_isDigit_digits width n)
    rw [length_digits] at hm hn
    rw [← hm, ← hn, h]

end Decimal

namespace Leader

/-- Leaders that differ in the two lengths have the same bytes exactly if the last five digits of these agree. -/
theorem bytes_eq_bytes_iff (l : Leader) (recordLength baseAddress : Nat) :
    l.bytes = { l with recordLength, baseAddress }.bytes ↔
      l.recordLength % 100000 = recordLength % 100000 ∧
        l.baseAddress % 100000 = baseAddress % 100000 := by
  constructor
  · intro h
    have hlength : Decimal.digits 5 l.recordLength = Decimal.digits 5 recordLength :=
      congrArg (List.take 5) h
    have hbase : Decimal.digits 5 l.baseAddress = Decimal.digits 5 baseAddress :=
      congrArg (fun bs => (bs.drop 12).take 5) h
    exact ⟨Decimal.digits_eq_iff.1 hlength, Decimal.digits_eq_iff.1 hbase⟩
  · rintro ⟨hlength, hbase⟩
    have hlength : Decimal.digits 5 l.recordLength = Decimal.digits 5 recordLength :=
      Decimal.digits_eq_iff.2 hlength
    have hbase : Decimal.digits 5 l.baseAddress = Decimal.digits 5 baseAddress :=
      Decimal.digits_eq_iff.2 hbase
    rw [bytes, bytes, hlength, hbase]

end Leader

namespace Record

variable {r s : Record} {excluded : List Tag} {suppressLocal : Bool}

/-- Records with the same fields are told apart by their leaders. -/
theorem checksum_eq_iff_of_fields_eq (h : r.fields = s.fields) :
    r.checksum excluded suppressLocal = s.checksum excluded suppressLocal ↔
      r.leader.bytes = s.leader.bytes ∨
        Sha1.Collision (r.checksumInput excluded suppressLocal) (s.checksumInput excluded suppressLocal) := by
  have hfields : r.checksumFields excluded suppressLocal = s.checksumFields excluded suppressLocal := by
    rw [checksumFields, checksumFields, h]
  have hinput : r.checksumInput excluded suppressLocal = s.checksumInput excluded suppressLocal ↔
      r.leader.bytes = s.leader.bytes := by
    rw [checksumInput, checksumInput, hfields, List.append_left_inj]
  rw [← hinput]
  constructor
  · intro hchecksum
    by_cases heq : r.checksumInput excluded suppressLocal = s.checksumInput excluded suppressLocal
    · exact .inl heq
    · exact .inr ⟨heq, Sha1.hex_injective hchecksum⟩
  · rintro (heq | hcollision)
    · rw [checksum, checksum, heq]
    · rw [checksum, checksum, hcollision.2]

end Record

namespace Iso2709

/-- The bytes that a record is written as. -/
def written (r : Record) : Bytes := ((parts r.fields).map fun p => p.encode r.leader).flatten

section

variable {r : Record}

theorem firstLeader_eq (hr : r.Storable) : ∃ p ps, parts r.fields = p :: ps ∧ p.Sound ∧
    firstLeader r = physicalLeader r.leader p.fields := by
  have hdivides := parts_divides_of_storable hr
  have hsound := hdivides.sound
  rw [firstLeader]
  cases hparts : parts r.fields with
  | nil =>
    have hlength := hdivides.length_le.1
    rw [hparts] at hlength
    exact absurd hlength (Nat.lt_irrefl 0)
  | cons p ps =>
    rw [hparts] at hsound
    exact ⟨p, ps, rfl, hsound p List.mem_cons_self, rfl⟩

/-- What is written opens with the leader that is read back. -/
theorem take_written (hr : r.Storable) : (written r).take 24 = (firstLeader r).bytes := by
  obtain ⟨p, ps, hparts, hsound, hleader⟩ := firstLeader_eq hr
  rw [written, hparts, List.map_cons, List.flatten_cons, hleader, Part.encode, encode, hsound.size_eq]
  simp only [List.append_assoc]
  exact List.take_left' (Leader.length_bytes _)

/-- Both of its lengths have five digits. -/
theorem firstLeader_lt (hr : r.Storable) :
    (firstLeader r).recordLength < 100000 ∧ (firstLeader r).baseAddress < 100000 := by
  obtain ⟨p, _, _, hsound, hleader⟩ := firstLeader_eq hr
  have hlt : exactSize p.fields < recordLimit := hsound.size_eq ▸ hsound.size_lt
  have hle := baseAddress_le p.fields
  unfold recordLimit at hlt
  rw [hleader, physicalLeader_recordLength, physicalLeader_baseAddress]
  omega

/-- The lengths in the leader make no difference to what is written. -/
theorem written_readBack (hordered : Ordered r.fields) : written (readBack r) = written r := by
  have hfields : (readBack r).fields = r.fields := sortFields_of_ordered hordered
  rw [written, written, hfields]
  rfl

theorem storable_readBack (hr : r.Storable) (hordered : Ordered r.fields) : (readBack r).Storable := by
  have hfields : (readBack r).fields = r.fields := sortFields_of_ordered hordered
  refine ⟨(isValid_readBack hr hfields).trans hr.valid, hfields ▸ hr.fields, ?_, ?_⟩
  · rw [hfields]
    exact hr.single
  · exact ⟨hr.leader.ascii, hr.leader.indicatorCount_le, hr.leader.subfieldCodeCount_le⟩

/-- What is read from the bytes, on a stream that does not fail. -/
theorem readAll_written (hr : r.Storable) {source : Source} (hs : source.Steady)
    (hup : source.upcoming = written r) :
    (RecordReader.binary (.ofSource source)).readAll.result = .ok [readBack r] :=
  readAll_of_upcoming hs (List.forall_mem_singleton.2 hr) (.singleton r)
    (hup.trans (List.append_nil _).symm)

theorem write_storable {σ : Type} [ByteSink σ] (k : Reliable σ) {sink : σ} (hsink : k.sound sink)
    (hr : r.Storable) : ((Writer.ofSink sink).write r).result = .ok () ∧
      k.taken ((Writer.ofSink sink).write r).state.sink = k.taken sink ++ written r := by
  obtain ⟨after, notices, hwrite, _, htaken⟩ :=
    write_spec k (w := Writer.ofSink sink) rfl hsink (encoded_eq hr)
  rw [hwrite]
  exact ⟨rfl, htaken⟩

end

/-! ## Main result -/

/-- **Recognising a record that went through a file.** What is read back has the checksum that the record has
with the two lengths in its leader that the written bytes open with. So its own checksum stays the same exactly
if its leader has them already, or if the hash collides. What was read back has them, since it is written as the
same bytes. -/
theorem checksum_readBack {σ : Type} [ByteSink σ] (k : Reliable σ) {sink : σ} (hsink : k.sound sink)
    {r : Record} (haccepted : ((Writer.ofSink sink).write r).result = .ok ()) (hordered : Ordered r.fields)
    (hclean : ∀ f ∈ r.fields, fieldTerminator ∉ Utf8.encode f.contents) (hleader : r.leader.Encodable)
    (hsingle : (r.fields.filter (·.tag = Tag.controlNumber)).length = 1) :
    ∃ bs s, k.taken ((Writer.ofSink sink).write r).state.sink = k.taken sink ++ bs ∧
      (∀ source : Source, source.Steady → source.upcoming = bs →
        (RecordReader.binary (.ofSource source)).readAll.result = .ok [s]) ∧
      s.leader.bytes = bs.take 24 ∧
      (∀ excluded suppressLocal,
        let numbered := { r.leader with
          recordLength := s.leader.recordLength, baseAddress := s.leader.baseAddress }
        Record.checksum { r with leader := numbered } excluded suppressLocal =
            s.checksum excluded suppressLocal ∧
          (r.checksum excluded suppressLocal = s.checksum excluded suppressLocal ↔
            r.leader.recordLength % 100000 = s.leader.recordLength ∧
                r.leader.baseAddress % 100000 = s.leader.baseAddress ∨
              Sha1.Collision (r.checksumInput excluded suppressLocal)
                (s.checksumInput excluded suppressLocal))) ∧
      ((Writer.ofSink sink).write s).result = .ok () ∧
      k.taken ((Writer.ofSink sink).write s).state.sink = k.taken sink ++ bs := by
  obtain ⟨_, hfit⟩ := (Writer.write_eq_ok_iff hsink).1 haccepted
  have hr : r.Storable := ⟨hfit.valid, fun f hf => ⟨hfit.length_le f hf, hclean f hf⟩, hsingle, hleader⟩
  have hfields : r.fields = (readBack r).fields := (sortFields_of_ordered hordered).symm
  obtain ⟨hlength, hbase⟩ := firstLeader_lt hr
  obtain ⟨hagain, htaken⟩ := write_storable k hsink (storable_readBack hr hordered)
  rw [written_readBack hordered] at htaken
  refine ⟨written r, readBack r, (write_storable k hsink hr).2, fun source => readAll_written hr,
    (take_written hr).symm, fun excluded suppressLocal => ⟨?_, ?_⟩, hagain, htaken⟩
  · have hleader : { r.leader with
        recordLength := (readBack r).leader.recordLength,
        baseAddress := (readBack r).leader.baseAddress } = (readBack r).leader := rfl
    dsimp only
    rw [hleader]
    exact (Record.checksum_eq_iff_of_fields_eq (r := { r with leader := (readBack r).leader })
      hfields).2 (.inl rfl)
  · have hsame : r.leader.bytes = (readBack r).leader.bytes ↔
        r.leader.recordLength % 100000 = (readBack r).leader.recordLength ∧
          r.leader.baseAddress % 100000 = (readBack r).leader.baseAddress := by
      have heq := Leader.bytes_eq_bytes_iff r.leader (firstLeader r).recordLength (firstLeader r).baseAddress
      rwa [Nat.mod_eq_of_lt hlength, Nat.mod_eq_of_lt hbase] at heq
    rw [← hsame]
    exact Record.checksum_eq_iff_of_fields_eq hfields

/-- A record that is read back from what a sink in memory took. -/
theorem checksum_readBack_titled :
    let r := titled "1" "10\x1FaA"
    let run := (Writer.ofSink BoundedSink.unbounded).write r
    run.result = .ok () ∧ ∃ s,
      (RecordReader.binary (.ofSource (.ofBytes run.state.sink.accepted.toList))).readAll.result = .ok [s] ∧
        Record.checksum { r with leader := { r.leader with
          recordLength := s.leader.recordLength, baseAddress := s.leader.baseAddress } } [] false =
            s.checksum [] false := by
  intro r run
  have haccepted : run.result = .ok () :=
    (Writer.write_eq_ok_iff BoundedSink.sound_unbounded).2 ⟨rfl, by decide, by decide⟩
  have hordered : Ordered r.fields := by
    unfold Ordered
    decide
  obtain ⟨bs, s, htaken, hread, _, hchecksum, _⟩ := checksum_readBack BoundedSink.reliable
    BoundedSink.sound_unbounded haccepted hordered (by decide) (Leader.encodable_fresh _ _) rfl
  refine ⟨haccepted, s, hread _ (Source.steady_ofBytes _) ?_, (hchecksum [] false).1⟩
  rw [Source.upcoming_ofBytes]
  exact htaken

/-- The record that holds nothing but a control number has another checksum when it is read back. -/
theorem checksum_changes :
    let r := Record.ofParts (Leader.fresh .languageMaterial .monographOrItem) [⟨Tag.controlNumber, "1"⟩]
    let run := (Writer.ofSink BoundedSink.unbounded).write r
    run.result = .ok () ∧ r.Storable ∧ Ordered r.fields ∧ ∃ s,
      (RecordReader.binary (.ofSource (.ofBytes run.state.sink.accepted.toList))).readAll.result = .ok [s] ∧
        r.checksum [] false = "e7b1cb07fd8030dd265123f880a3738007eed6af" ∧
        s.checksum [] false = "fbe31bff0975a55d3ef009e0da36c937b78f89ec" := by
  intro r run
  have hordered : Ordered r.fields := List.pairwise_singleton _ _
  have hr : r.Storable :=
    ⟨by decide, fun f hf => ⟨(by decide : ∀ f ∈ r.fields, f.contents.utf8ByteSize ≤ 9998) f hf,
      (by decide : ∀ f ∈ r.fields, fieldTerminator ∉ Utf8.encode f.contents) f hf⟩, rfl,
      Leader.encodable_fresh _ _⟩
  obtain ⟨hwrite, htaken⟩ := write_storable BoundedSink.reliable BoundedSink.sound_unbounded hr
  rw [BoundedSink.taken_unbounded, List.nil_append] at htaken
  have hcovered (s : Record) (hs : s.fields = r.fields) : s.checksumFields [] false = r.fields := by
    rw [Record.checksumFields_eq_iff, Record.covered, hs]
    exact ⟨by decide, by decide⟩
  have hchecksum (s : Record) (hs : s.fields = r.fields) : s.checksum [] false =
      Sha1.hex (Sha1.digest (s.leader.bytes ++ r.fields.flatMap Field.hashed)) := by
    rw [Record.checksum, Record.checksumInput_eq, hcovered s hs]
  refine ⟨hwrite, hr, hordered, readBack r, readAll_written hr (Source.steady_ofBytes _) ?_, ?_, ?_⟩
  · rw [Source.upcoming_ofBytes]
    exact htaken
  · rw [hchecksum r rfl]
    decide +kernel
  · have hleader : (readBack r).leader = physicalLeader r.leader r.fields := rfl
    rw [hchecksum _ (sortFields_of_ordered hordered), hleader]
    decide +kernel

end Iso2709

end Marc21
