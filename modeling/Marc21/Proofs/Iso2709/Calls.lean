import Marc21.Proofs.Iso2709.Steady
import Marc21.Proofs.Iso2709.Grouping
import Marc21.Proofs.Iso2709.RoundTrip

/-!
Calls that are repeated whatever they give. Each one that does not end the input makes less of what is ahead
or of what is held back, so they come to the end, and stay there (`Drained`). The records that they give on
the way are those that grouping makes of the usable physical records (`calls_returned`).
-/

namespace Marc21.Iso2709.Reader

/-- The reader after some calls. -/
def after (r : Reader) : Nat → Reader
  | 0 => r
  | k + 1 => r.read.state.after k

/-- The results of the first calls. -/
def calls (r : Reader) : Nat → List (Except MarcError (Option Record))
  | 0 => []
  | k + 1 => r.read.result :: r.read.state.calls k

/-- The record that a call gives. -/
def given : Except MarcError (Option Record) → Option Record
  | .error _ => none
  | .ok record => record

/-- The physical records of a stream that can be used, with their offsets, when it is read up to its end. -/
inductive Parts : Reader → List (Nat × Record) → Prop where
  | done {r : Reader} (h : r.readPart.result = .ok none) : Parts r []
  | failed {r : Reader} {e : MarcError} {chunks : List (Nat × Record)}
      (h : r.readPart.result = .error e) (later : Parts r.readPart.state chunks) : Parts r chunks
  | part {r : Reader} {next : Record} {chunks : List (Nat × Record)}
      (h : r.readPart.result = .ok (some next)) (later : Parts r.readPart.state chunks) :
      Parts r ((r.position, next) :: chunks)

/-- Calls of a reader that come to the end of its input. The end is not before the `n`-th call, and what comes
until then is made of the given physical records. -/
structure Drained (r : Reader) (n : Nat) (chunks : List (Nat × Record)) : Prop where
  parts : Parts r chunks
  before : ∀ result ∈ r.calls n, result ≠ .ok none
  behind : ∀ k, n ≤ k → (r.after k).read.result = .ok none
  records : (r.calls n).filterMap given = r.grouping.returned chunks

/-! ## Physical records -/

section

variable {r : Reader} {chunks : List (Nat × Record)}

/-- A physical record is read without a look at what is held back. -/
theorem readPart_withGrouping (r : Reader) (g : Grouping) (n : Nat) :
    ({ r with grouping := g, recordsRead := n } : Reader).readPart = ⟨r.readPart.result,
      { r.readPart.state with grouping := g, recordsRead := n }, r.readPart.notices⟩ := by
  cases htake : r.source.take 5 with
  | mk arrived source =>
    cases arrived with
    | error failure => simp only [readPart, htake]
    | ok digits =>
      cases hlength : recordLength? digits with
      | none =>
        simp only [readPart, htake, hlength]
        split
        · rfl
        · split <;> rfl
      | some length =>
        cases htake' : source.take (length - 5) with
        | mk arrived' source' =>
          simp only [readPart, htake, hlength, htake']
          split
          · rfl
          · split
            · rfl
            · cases arrived' with
              | error failure => rfl
              | ok rest =>
                dsimp only
                split <;> rfl

theorem recordsRead_of_readPart {s : Reader} {result : Except MarcError (Option Record)}
    {notices : List Notice} (h : r.readPart = ⟨result, s, notices⟩) : s.recordsRead = r.recordsRead := by
  have hsame := readPart_withGrouping r r.grouping r.recordsRead
  rw [h] at hsame
  exact congrArg (fun o => o.state.recordsRead) hsame

/-- The count goes up by one if a call gives a record, and stays as it is otherwise. -/
theorem read_recordsRead (r : Reader) :
    r.read.state.recordsRead = r.recordsRead + (given r.read.result).toList.length := by
  fun_induction read r with
  | case1 r e s _ hp => exact recordsRead_of_readPart hp
  | case2 r s _ hp => exact congrArg (· + 1) (recordsRead_of_readPart hp)
  | case3 r s _ hp => exact (recordsRead_of_readPart hp :)
  | case4 r next s _ hp => exact congrArg (· + 1) (recordsRead_of_readPart hp)
  | case5 r next s _ hp _ _ _ _ ih => rw [ih, ← recordsRead_of_readPart hp]

theorem Parts.withGrouping (h : Parts r chunks) (g : Grouping) (n : Nat) :
    Parts { r with grouping := g, recordsRead := n } chunks := by
  induction h with
  | done h =>
    apply Parts.done
    rw [readPart_withGrouping, h]
  | failed h later ih =>
    apply Parts.failed
    · rw [readPart_withGrouping, h]
    · rw [readPart_withGrouping]
      exact ih
  | @part r next chunks h later ih =>
    apply Parts.part (r := { r with grouping := g, recordsRead := n })
    · rw [readPart_withGrouping, h]
    · rw [readPart_withGrouping]
      exact ih

/-- A failed physical record leaves what is held back. -/
theorem grouping_of_error {e : MarcError} (h : r.readPart.result = .error e) :
    r.read.result = .error e ∧ r.read.state.grouping = r.grouping := by
  obtain ⟨hresult, hstate⟩ := read_of_error h
  rw [hstate]
  exact ⟨hresult, readPart_grouping r⟩

end

/-! ## The end -/

/-- Nothing is ahead and nothing is held back. -/
structure Exhausted (r : Reader) : Prop where
  steady : r.source.Steady
  upcoming_eq : r.source.upcoming = []
  held_eq : r.grouping.held = none

section

variable {r : Reader}

/-- At the end of the stream a call gives what is held back, and then nothing is left. -/
theorem read_at_end (hs : r.source.Steady) (hup : r.source.upcoming = []) :
    Parts r [] ∧ r.read.result = .ok r.held? ∧ Exhausted r.read.state := by
  obtain ⟨hresult, source, hstate, hsteady, hrest, _⟩ := readPart_spec hs
  rw [hup, partRead_nil] at hresult hrest
  obtain ⟨hread, m, hafter⟩ := read_of_none hresult
  refine ⟨.done hresult, hread, ?_⟩
  rw [hafter, hstate]
  exact ⟨hsteady, hrest, rfl⟩

theorem Exhausted.read (h : Exhausted r) : r.read.result = .ok none ∧ Exhausted r.read.state := by
  obtain ⟨_, hread, hafter⟩ := read_at_end h.steady h.upcoming_eq
  rw [held?, h.held_eq] at hread
  exact ⟨hread, hafter⟩

/-- After the end every call gives nothing. -/
theorem Exhausted.after (h : Exhausted r) (k : Nat) : (r.after k).read.result = .ok none := by
  induction k generalizing r with
  | zero => exact h.read.1
  | succ k ih => exact ih h.read.2

theorem drained_at_end (hs : r.source.Steady) (hup : r.source.upcoming = []) :
    Drained r (if r.grouping.held.isSome then 1 else 0) [] := by
  obtain ⟨hparts, hread, hafter⟩ := read_at_end hs hup
  cases hheld : r.grouping.held with
  | none =>
    have hnone : Exhausted r := ⟨hs, hup, hheld⟩
    refine ⟨hparts, by simp [calls], fun k _ => hnone.after k, ?_⟩
    simp [calls, Grouping.returned, Grouping.pushAll, Grouping.finish, hheld]
  | some held =>
    rw [held?, hheld, Option.map_some] at hread
    refine ⟨hparts, by simp [calls, hread], ?_, ?_⟩
    · intro k hk
      obtain ⟨k, rfl⟩ := Nat.exists_eq_add_of_lt (Nat.lt_of_succ_le hk)
      rw [Nat.zero_add]
      exact hafter.after k
    · simp [calls, hread, given, Grouping.returned, Grouping.pushAll, Grouping.finish, hheld]

end

/-! ## One more call in front -/

section

variable {r s : Reader} {n : Nat} {chunks : List (Nat × Record)}

theorem Drained.behind_succ (h : Drained r.read.state n chunks) (k : Nat) (hk : n + 1 ≤ k) :
    (r.after k).read.result = .ok none := by
  obtain ⟨k, rfl⟩ := Nat.exists_eq_add_of_le' hk
  exact h.behind (k + n) (Nat.le_add_left n k)

/-- A failed physical record costs a call and makes no difference. -/
theorem drained_of_error {e : MarcError} (h : r.readPart.result = .error e)
    (later : Drained r.readPart.state n chunks) : Drained r (n + 1) chunks := by
  obtain ⟨hresult, hstate⟩ := read_of_error h
  rw [← hstate] at later
  refine ⟨.failed h (hstate ▸ later.parts), ?_, later.behind_succ, ?_⟩
  · rw [calls, hresult, List.forall_mem_cons]
    exact ⟨by simp, later.before⟩
  · rw [calls, hresult, List.filterMap_cons_none rfl, later.records, hstate, readPart_grouping]

/-- A physical record that completes a logical one costs a call too. -/
theorem drained_of_push_some {next record : Record} {g : Grouping}
    (h : r.readPart.result = .ok (some next))
    (hpush : r.grouping.push r.position next = (some record, g))
    (later : Drained r.read.state n chunks) : Drained r (n + 1) ((r.position, next) :: chunks) := by
  obtain ⟨hresult, recordsRead, hstate⟩ := read_of_push_some h hpush
  have hparts := later.parts.withGrouping r.readPart.state.grouping r.readPart.state.recordsRead
  rw [hstate] at hparts
  refine ⟨.part h hparts, ?_, later.behind_succ, ?_⟩
  · rw [calls, hresult, List.forall_mem_cons]
    exact ⟨by simp, later.before⟩
  · rw [calls, hresult, List.filterMap_cons_some (f := given) rfl, later.records, hstate]
    simp [Grouping.returned, Grouping.pushAll, hpush]

theorem calls_congr (hresult : r.read.result = s.read.result) (hstate : r.read.state = s.read.state)
    (k : Nat) : r.calls k = s.calls k ∧ (r.after k).read.result = (s.after k).read.result := by
  cases k with
  | zero => exact ⟨rfl, hresult⟩
  | succ k =>
    rw [calls, calls, after, after, hresult, hstate]
    exact ⟨rfl, rfl⟩

/-- A physical record that is only taken in costs no call. -/
theorem drained_of_push_none {next : Record} {g : Grouping} (h : r.readPart.result = .ok (some next))
    (hpush : r.grouping.push r.position next = (none, g))
    (later : Drained { r.readPart.state with grouping := g } n chunks) :
    Drained r n ((r.position, next) :: chunks) := by
  obtain ⟨hresult, hstate⟩ := read_of_push_none h hpush
  have hsame := calls_congr hresult hstate
  have hparts := later.parts.withGrouping r.readPart.state.grouping r.readPart.state.recordsRead
  refine ⟨.part h hparts, ?_, ?_, ?_⟩
  · rw [(hsame n).1]
    exact later.before
  · intro k hk
    rw [(hsame k).2]
    exact later.behind k hk
  · rw [(hsame n).1, later.records]
    simp only [Grouping.returned, Grouping.pushAll, hpush, Option.toList_none, List.nil_append]

end

/-! ## Main result -/

theorem held_of_push {g h : Grouping} {offset : Nat} {next : Record} {out : Option Record}
    (hpush : g.push offset next = (out, h)) : h.held.isSome = true := by
  unfold Grouping.push at hpush
  split at hpush
  · cases hpush
    rfl
  · split at hpush <;> cases hpush <;> rfl

theorem held_of_push_some {g h : Grouping} {offset : Nat} {next record : Record}
    (hpush : g.push offset next = (some record, h)) : g.held.isSome = true := by
  unfold Grouping.push at hpush
  split at hpush
  · cases hpush
  · next hheld =>
    rw [hheld]
    rfl

/-- The bytes that are ahead and the record held back bound the calls until the end. -/
theorem exists_drained {r : Reader} (hs : r.source.Steady) : ∃ n chunks,
    n ≤ r.source.upcoming.length + (if r.grouping.held.isSome then 1 else 0) ∧ Drained r n chunks := by
  generalize hlength : r.source.upcoming.length = length
  induction length using Nat.strongRecOn generalizing r with
  | ind length ih =>
    by_cases hnil : r.source.upcoming = []
    · exact ⟨_, [], Nat.le_add_left _ _, drained_at_end hs hnil⟩
    · obtain ⟨hresult, source, hstate, hsteady, hup, _⟩ := readPart_spec hs
      have hgrouping := readPart_grouping r
      have hpos : 0 < (partRead r.position r.source.upcoming).taken := partRead_taken_pos hnil
      have hbytes : 0 < length := hlength ▸ List.length_pos_iff.2 hnil
      have hless : r.readPart.state.source.upcoming.length < length := by
        rw [hstate, hup, List.length_drop, hlength]
        omega
      have hsource : r.readPart.state.source.Steady := by
        rw [hstate]
        exact hsteady
      cases hpart : r.readPart.result with
      | error e =>
        obtain ⟨n, chunks, hn, hlater⟩ := ih _ hless hsource rfl
        rw [hgrouping] at hn
        exact ⟨n + 1, chunks, by omega, drained_of_error hpart hlater⟩
      | ok found =>
        cases found with
        | none => exact absurd (partRead_none (hresult ▸ hpart)) hnil
        | some next =>
          cases hpush : r.grouping.push r.position next with
          | mk out g =>
            have hheld := held_of_push hpush
            cases out with
            | none =>
              obtain ⟨n, chunks, hn, hlater⟩ :=
                ih _ hless (r := { r.readPart.state with grouping := g }) hsource rfl
              rw [if_pos hheld] at hn
              exact ⟨n, _, by omega, drained_of_push_none hpart hpush hlater⟩
            | some record =>
              obtain ⟨_, recordsRead, hafter⟩ := read_of_push_some hpart hpush
              obtain ⟨n, chunks, hn, hlater⟩ :=
                ih _ hless (r := { r.readPart.state with grouping := g, recordsRead }) hsource rfl
              rw [if_pos hheld] at hn
              rw [if_pos (held_of_push_some hpush)]
              exact ⟨n + 1, _, by omega, drained_of_push_some hpart hpush (hafter ▸ hlater)⟩

/-- **Reading to the end.** Calls that are repeated whatever they give come to the end of any bytes, and then
there is nothing but the end. There are no more of them until then than there are bytes. The records on the
way are those that grouping makes of the usable physical records, since one that fails leaves alone what is
held back. -/
theorem calls_returned {source : Source} (hsteady : source.Steady) :
    (∃ n chunks, n ≤ source.upcoming.length ∧ Parts (ofSource source) chunks ∧
      (∀ result ∈ (ofSource source).calls n, result ≠ .ok none) ∧
      (∀ k, n ≤ k → ((ofSource source).after k).read.result = .ok none) ∧
      ((ofSource source).calls n).filterMap given = Grouping.empty.returned chunks) ∧
    ∀ (r : Reader) (e : MarcError), r.readPart.result = .error e →
      r.read.result = .error e ∧ r.read.state.grouping = r.grouping := by
  constructor
  · obtain ⟨n, chunks, hn, hdrained⟩ := exists_drained (r := ofSource source) hsteady
    exact ⟨n, chunks, hn, hdrained.parts, hdrained.before, hdrained.behind, hdrained.records⟩
  · intro r e h
    exact grouping_of_error h

section

variable {r : Reader} {chunks : List (Nat × Record)}

theorem Parts.eq_nil (h : Parts r chunks) (hs : r.source.Steady) (hup : r.source.upcoming = []) :
    chunks = [] := by
  have hresult := (readPart_spec hs).1
  rw [hup, partRead_nil] at hresult
  cases h with
  | done => rfl
  | failed h => cases hresult.symm.trans h
  | part h => cases hresult.symm.trans h

theorem Parts.skip (h : Parts r chunks) (hs : r.source.Steady) {e : MarcError} (taken : Nat)
    (hread : partRead r.position r.source.upcoming = ⟨.error e, taken, 0⟩) :
    ∃ s : Reader, Parts s chunks ∧ s.source.Steady ∧ s.position = r.position ∧
      s.source.upcoming = r.source.upcoming.drop taken := by
  obtain ⟨hresult, source, hstate, hsteady, hup, _⟩ := readPart_spec hs
  rw [hread] at hresult hstate hup
  cases h with
  | done h => cases hresult.symm.trans h
  | part h => cases hresult.symm.trans h
  | failed h later =>
    refine ⟨r.readPart.state, later, ?_⟩
    rw [hstate]
    exact ⟨hsteady, rfl, hup⟩

theorem Parts.take (h : Parts r chunks) (hs : r.source.Steady) {bs rest : Bytes} {next : Record}
    (whole : Whole bs next) (hup : r.source.upcoming = bs ++ rest) :
    ∃ (s : Reader) (later : List (Nat × Record)), chunks = (r.position, next) :: later ∧ Parts s later ∧
      s.source.Steady ∧ s.position = r.position + bs.length ∧ s.source.upcoming = rest := by
  obtain ⟨source, notices, hread, hsteady, hrest⟩ := readPart_of_whole hs hup whole
  cases h with
  | done h =>
    rw [hread] at h
    cases h
  | failed h =>
    rw [hread] at h
    cases h
  | part h later =>
    rw [hread] at h later
    cases h
    exact ⟨_, _, rfl, later, hsteady, rfl, hrest⟩

end

/-- A physical record that has nothing but a control number. -/
def numberedPart (controlNumber : String) : Part :=
  ⟨[⟨Tag.controlNumber, controlNumber⟩], exactSize [⟨Tag.controlNumber, controlNumber⟩]⟩

/-- An unusable length between two records. The first call meets it with the first record held back, and the
calls behind it give both. -/
theorem calls_returned_between :
    let leader := Leader.fresh .languageMaterial .monographOrItem
    let r := ofSource (.ofBytes ((numberedPart "1").encode leader ++
      (Utf8.encode "00000" ++ (numberedPart "2").encode leader)))
    r.read.result = .error (.malformedLeader (.lengthUnusable "00000" 40)) ∧
      ∃ n, (∀ result ∈ r.calls n, result ≠ .ok none) ∧
        (r.calls n).filterMap given =
          [physical leader (numberedPart "1"), physical leader (numberedPart "2")] ∧
        ∀ k, n ≤ k → (r.after k).read.result = .ok none := by
  intro leader r
  have hleader : leader.Encodable := Leader.encodable_fresh _ _
  have hsound : (numberedPart "1").Sound := ⟨rfl, by decide⟩
  have hlength : ((numberedPart "1").encode leader).length = 40 :=
    Part.length_encode hsound (by decide) leader
  have hfirst : Whole ((numberedPart "1").encode leader) (physical leader (numberedPart "1")) :=
    whole_encode hleader hsound (List.forall_mem_singleton.2 ⟨by decide, by decide⟩)
  have hsecond : Whole ((numberedPart "2").encode leader) (physical leader (numberedPart "2")) :=
    whole_encode hleader ⟨rfl, by decide⟩ (List.forall_mem_singleton.2 ⟨by decide, by decide⟩)
  have hunusable : ∀ rest : Bytes, partRead 40 (Utf8.encode "00000" ++ rest) =
      ⟨.error (.malformedLeader (.lengthUnusable "00000" 40)), 5, 0⟩ := fun _ => rfl
  have hsteady : r.source.Steady := Source.steady_ofBytes _
  have hup : r.source.upcoming = _ := Source.upcoming_ofBytes _
  obtain ⟨⟨n, chunks, _, hparts, hbefore, hbehind, hrecords⟩, hfailed⟩ := calls_returned hsteady
  constructor
  · -- the first record is held back when the unusable length comes
    obtain ⟨source, notices, hpart, hlater, hlaterup⟩ := readPart_of_whole hsteady hup hfirst
    have hposition : r.position + ((numberedPart "1").encode leader).length = 40 := by rw [hlength]; rfl
    rw [hposition] at hpart
    rw [read_push_none hpart rfl]
    apply (hfailed _ _ _).1
    rw [(readPart_spec hlater).1]
    dsimp only
    rw [hlaterup, hunusable]
  · obtain ⟨s, later, rfl, hs, hssteady, hsposition, hsup⟩ := hparts.take hsteady hfirst hup
    rw [hlength] at hsposition
    obtain ⟨t, ht, htsteady, htposition, htup⟩ := hs.skip hssteady 5 (by
      rw [hsposition, hsup]
      exact hunusable _)
    have hlast : t.source.upcoming = (numberedPart "2").encode leader ++ [] := by
      rw [htup, hsup, List.append_nil]
      rfl
    obtain ⟨u, rest, rfl, hu, husteady, _, huup⟩ := ht.take htsteady hsecond hlast
    rw [hu.eq_nil husteady huup, htposition, hsposition] at hrecords
    exact ⟨n, hbefore, hrecords.trans (by decide +kernel), hbehind⟩

end Marc21.Iso2709.Reader
