import Marc21.Proofs.Iso2709.Rewriting
import Marc21.Proofs.Iso2709.Session

/-!
A stream that breaks off. Each physical record opens with its own length, so a reader finds the ends where the
writer put them (`exists_take_of_holds`), and bytes that break off anywhere else are not read to their end
without an error (`readAll_cutStream`).
-/

namespace Marc21.Iso2709

/-- Bytes that open with their own length. -/
def Framed (bs : Bytes) : Prop := Reader.recordLength? (bs.take 5) = some bs.length

section

variable {bs cs all : Bytes}

theorem Framed.le_length (h : Framed bs) : 26 ≤ bs.length := Reader.le_of_recordLength? h

/-- At the front of any bytes there is one framed piece at most. -/
theorem Framed.unique (hb : Framed bs) (hc : Framed cs) (hbs : bs <+: all) (hcs : cs <+: all) :
    bs = cs := by
  have hb26 := hb.le_length
  have hc26 := hc.le_length
  have hdigits : bs.take 5 = cs.take 5 := by
    obtain ⟨later, rfl⟩ := hbs
    have heq := (List.prefix_iff_eq_take.1 hcs)
    rw [heq, List.take_take, Nat.min_eq_left (by omega), List.take_append_of_le_length (by omega)]
  have hlength : bs.length = cs.length := Option.some.inj (hb.symm.trans (hdigits ▸ hc))
  rw [List.prefix_iff_eq_take.1 hbs, List.prefix_iff_eq_take.1 hcs, hlength]

end

theorem framed_of_mem_parts {r : Record} (h : Fit r) : ∀ p ∈ parts r.fields, Framed (p.encode r.leader) := by
  intro p hp
  have hdivides := parts_divides fun f hf => size_le_of_length_le (h.length_le f hf)
  exact recordLength?_encode r.leader (hdivides.sound p hp)
    fun f hf => h.length_le f (hdivides.mem_fields p hp f hf)

/-- Whole physical records that a sequence of framed pieces starts with are some of the pieces. -/
theorem exists_take_of_holds {bs : Bytes} {rs : List Record} (h : Holds bs rs) {chunks : List Bytes}
    (hchunks : ∀ c ∈ chunks, Framed c) (hstart : bs <+: chunks.flatten) :
    ∃ n, bs = (chunks.take n).flatten := by
  induction h generalizing chunks with
  | nil => exact ⟨0, rfl⟩
  | @cons bs rest r rs whole later ih =>
    have hframed : Framed bs := whole.length_eq
    have hfront := (List.prefix_append bs rest).trans hstart
    cases chunks with
    | nil =>
      have hlength := hfront.length_le
      rw [List.flatten_nil, List.length_nil] at hlength
      have := hframed.le_length
      omega
    | cons c cs =>
      obtain ⟨hc, hcs⟩ := List.forall_mem_cons.1 hchunks
      obtain rfl : bs = c := hframed.unique hc hfront (List.prefix_append c cs.flatten)
      obtain ⟨n, rfl⟩ := ih hcs ((List.prefix_append_right_inj bs).1 hstart)
      exact ⟨n + 1, rfl⟩

/-! ## Main result -/

/-- **A stream that breaks off within a physical record is not read without an error.** The bytes that a
writer leaves on a sink are the physical records of what it accepted, and a stream of the first of these bytes
can be read to its end only if it stops behind a physical record. -/
theorem readAll_cutStream {σ : Type} [ByteSink σ] (k : Reliable σ) {sink : σ} (hsink : k.sound sink)
    (calls : List Call) :
    let run := (Writer.ofSink sink).callAll calls
    let chunks := (accepted calls run.1).flatMap fun r => (parts r.fields).map fun p => p.encode r.leader
    k.taken run.2.sink = k.taken sink ++ chunks.flatten ∧
      ∀ source : Source, source.Steady → source.upcoming <+: chunks.flatten →
        (∀ n, source.upcoming.length ≠ ((chunks.take n).map List.length).sum) →
        ∃ e, (RecordReader.binary (.ofSource source)).readAll.result = .error e := by
  intro run chunks
  have h := Writer.holding_callAll (k := k) hsink calls
  have hframed : ∀ c ∈ chunks, Framed c := by
    intro c hc
    obtain ⟨r, hr, hc⟩ := List.mem_flatMap.1 hc
    obtain ⟨p, hp, rfl⟩ := List.mem_map.1 hc
    exact framed_of_mem_parts (h.fit r hr) p hp
  refine ⟨?_, fun source hsteady hstart hcut => ?_⟩
  · rw [h.taken_eq, Writer.encodeAll_eq, ← List.flatMap_def]
  · cases hread : (RecordReader.binary (.ofSource source)).readAll.result with
    | error e => exact ⟨e, rfl⟩
    | ok rs =>
      obtain ⟨parts, hparts, _⟩ := (Reader.readAll_eq_ok_iff_holds hsteady).1 hread
      obtain ⟨n, hn⟩ := exists_take_of_holds hparts hframed hstart
      refine absurd ?_ (hcut n)
      rw [hn, List.length_flatten]

/-- A record of 58 bytes that breaks off within its directory. -/
theorem readAll_cutStream_titled :
    let run := (Writer.ofSink BoundedSink.unbounded).callAll [.write (titled "1" "10\x1FaA"), .finish]
    let source := Source.ofBytes (run.2.sink.accepted.toList.take 30)
    run.2.sink.accepted.size = 58 ∧ source.upcoming.length = 30 ∧
      ∃ e, (RecordReader.binary (.ofSource source)).readAll.result = .error e := by
  intro run source
  have hsound := BoundedSink.sound_unbounded
  obtain ⟨htaken, hread⟩ := readAll_cutStream BoundedSink.reliable hsound
    [.write (titled "1" "10\x1FaA"), .finish]
  have hwrite : ((Writer.ofSink BoundedSink.unbounded).write (titled "1" "10\x1FaA")).result = .ok () :=
    (Writer.write_eq_ok_iff hsound).2 ⟨rfl, by decide, by decide⟩
  have hdone : accepted [.write (titled "1" "10\x1FaA"), .finish] run.1 = [titled "1" "10\x1FaA"] := by
    have hresults : run.1 = [((Writer.ofSink BoundedSink.unbounded).write (titled "1" "10\x1FaA")).result,
      ((Writer.ofSink BoundedSink.unbounded).write (titled "1" "10\x1FaA")).state.finish.result] := rfl
    rw [hresults, hwrite]
    rfl
  have hparts : parts (titled "1" "10\x1FaA").fields = [⟨(titled "1" "10\x1FaA").fields, 58⟩] := by
    have hfirst : parts (titled "1" "10\x1FaA").fields =
        ⟨(titled "1" "10\x1FaA").fields, 58⟩ :: continuations ⟨Tag.controlNumber, "1"⟩ [] := rfl
    rw [hfirst, continuations, dif_pos rfl]
  rw [hdone, List.flatMap_singleton, hparts] at htaken hread
  have hencoded : (encode (titled "1" "10\x1FaA").leader (titled "1" "10\x1FaA").fields 58).length = 58 := by
    rw [length_encode _ (by decide) (by decide)]
    decide
  have hsize : run.2.sink.accepted.size = 58 := by
    rw [← Array.length_toList, show run.2.sink.accepted.toList = _ from htaken]
    simpa [Part.encode] using hencoded
  have hlength : source.upcoming.length = 30 := by
    rw [Source.upcoming_ofBytes, List.length_take, Array.length_toList, hsize]
    rfl
  refine ⟨hsize, hlength, hread source (Source.steady_ofBytes _) ?_ fun n => ?_⟩
  · rw [Source.upcoming_ofBytes, show run.2.sink.accepted.toList = _ from htaken]
    exact List.take_prefix _ _
  · -- Behind no record there are no bytes, and behind the only one there are 58.
    rw [hlength]
    cases n with
    | zero => simp
    | succ n =>
      have hne : (30 : Nat) ≠ 58 := by decide
      simpa only [List.map_cons, List.map_nil, List.take_succ_cons, List.take_nil, List.sum_cons, List.sum_nil,
        Nat.add_zero, Part.encode, hencoded] using hne

end Marc21.Iso2709
