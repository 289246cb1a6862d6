import Mathlib.Data.List.Chain
import Marc21.Iso2709.Grouping
import Marc21.Proofs.Record.Order

/-!
What grouping makes of a sequence of physical records. The sequence falls into runs of neighbours that share
a control number (`Runs`), in one way only (`exists_runs`, `Runs.unique`). Each run comes out as one record,
and while it is taken in its offset and what is there of it are held back (`pushAll_runs`).
-/

namespace Marc21.Iso2709

namespace Grouping

/-- Takes in physical records one after the other, each with its offset, and gives out the records that they
complete. -/
def pushAll (g : Grouping) : List (Nat × Record) → List Record × Grouping
  | [] => ([], g)
  | (offset, next) :: later =>
    let (done, g) := g.push offset next
    let (others, last) := g.pushAll later
    (done.toList ++ others, last)

/-- All records that come out, the one that is held back at the end of the input included. -/
def returned (g : Grouping) (chunks : List (Nat × Record)) : List Record :=
  (g.pushAll chunks).1 ++ (g.pushAll chunks).2.finish.1.toList

theorem pushAll_append (g : Grouping) (xs ys : List (Nat × Record)) :
    g.pushAll (xs ++ ys) = ((g.pushAll xs).1 ++ ((g.pushAll xs).2.pushAll ys).1,
      ((g.pushAll xs).2.pushAll ys).2) := by
  induction xs generalizing g with
  | nil => rfl
  | cons x xs ih => simp only [List.cons_append, pushAll, ih, List.append_assoc]

end Grouping

/-! ## Runs -/

/-- Both have a control number, and it is the same. -/
def SameNumber (r s : Record) : Prop := ∃ n, r.controlNumber? = some n ∧ s.controlNumber? = some n

theorem continues_iff {r s : Record} : continues r s = true ↔ SameNumber r s := by
  unfold continues SameNumber
  cases r.controlNumber? with
  | none => simp
  | some a =>
    cases s.controlNumber? with
    | none => simp
    | some b => simp [eq_comm (a := b)]

theorem SameNumber.symm {r s : Record} (h : SameNumber r s) : SameNumber s r := by
  obtain ⟨n, hr, hs⟩ := h
  exact ⟨n, hs, hr⟩

theorem SameNumber.trans {r s t : Record} (h : SameNumber r s) (k : SameNumber s t) :
    SameNumber r t := by
  obtain ⟨n, hr, hs⟩ := h
  obtain ⟨m, hs', ht⟩ := k
  rw [hs] at hs'
  cases hs'
  exact ⟨n, hr, ht⟩

/-- Physical records that belong together. There is a first one, and it has an offset. -/
structure Run where
  offset : Nat
  first : Record
  later : List (Nat × Record)

namespace Run

def chunks (run : Run) : List (Nat × Record) := (run.offset, run.first) :: run.later

/-- The fields that physical records add to a record which has a control number already. -/
def added (later : List (Nat × Record)) : List Field :=
  later.flatMap fun chunk => chunk.2.fields.filter (·.tag ≠ Tag.controlNumber)

/-- What a run makes up: its only physical record as it is, or the first one with all fields sorted. -/
def record (run : Run) : Record :=
  if run.later = [] then run.first
  else { run.first with
    fields := sortFields (run.first.fields ++ added run.later)
    size := run.first.size + totalSize (added run.later) }

/-- All have the control number of the first one. One that has none stays alone. -/
def Alike (run : Run) : Prop := ∀ chunk ∈ run.later, SameNumber run.first chunk.2

end Run

/-- The longest runs of neighbours that share a control number. -/
structure Runs (chunks : List (Nat × Record)) (runs : List Run) : Prop where
  chunks_eq : runs.flatMap Run.chunks = chunks
  alike : ∀ run ∈ runs, run.Alike
  apart : runs.IsChain fun run next => ¬SameNumber run.first next.first

theorem runs_nil : Runs [] [] := ⟨rfl, by simp, .nil⟩

/-- The first chunk joins the run behind it or is one of its own. -/
theorem exists_runs (chunks : List (Nat × Record)) : ∃ runs, Runs chunks runs := by
  induction chunks with
  | nil => exact ⟨[], runs_nil⟩
  | cons chunk chunks ih =>
    obtain ⟨offset, first⟩ := chunk
    obtain ⟨runs, h⟩ := ih
    cases runs with
    | nil => exact ⟨[⟨offset, first, []⟩], by simpa [Run.chunks] using h.chunks_eq,
        by simp [Run.Alike], .singleton _⟩
    | cons run runs =>
      obtain ⟨halike, hothers⟩ := List.forall_mem_cons.1 h.alike
      by_cases hsame : SameNumber first run.first
      · refine ⟨⟨offset, first, run.chunks⟩ :: runs, ?_, ?_, ?_⟩
        · simp [Run.chunks, ← h.chunks_eq]
        · rw [List.forall_mem_cons]
          refine ⟨?_, hothers⟩
          intro chunk hchunk
          rcases List.mem_cons.1 hchunk with rfl | hchunk
          · exact hsame
          · exact hsame.trans (halike chunk hchunk)
        · have happart := h.apart
          cases runs with
          | nil => exact .singleton _
          | cons next runs =>
            rw [List.isChain_cons_cons] at happart ⊢
            exact ⟨fun hnext => happart.1 (hsame.symm.trans hnext), happart.2⟩
      · refine ⟨⟨offset, first, []⟩ :: run :: runs, ?_, ?_, ?_⟩
        · simp [Run.chunks, ← h.chunks_eq]
        · rw [List.forall_mem_cons]
          exact ⟨by simp [Run.Alike], h.alike⟩
        · rw [List.isChain_cons_cons]
          exact ⟨hsame, h.apart⟩

/-- The first run is as long as the control number stays the same. -/
theorem Runs.tail_eq {chunks : List (Nat × Record)} {run : Run} {runs : List Run}
    (h : Runs chunks (run :: runs)) :
    run.later = chunks.tail.takeWhile (fun chunk => continues run.first chunk.2) ∧
      Runs (chunks.tail.dropWhile fun chunk => continues run.first chunk.2) runs := by
  obtain ⟨halike, hothers⟩ := List.forall_mem_cons.1 h.alike
  have htail : chunks.tail = run.later ++ runs.flatMap Run.chunks := by
    rw [← h.chunks_eq]
    rfl
  have hin : ∀ chunk ∈ run.later, continues run.first chunk.2 = true := fun chunk hchunk =>
    continues_iff.2 (halike chunk hchunk)
  -- The next run, if there is one, starts with another control number.
  have hstop : ∀ p, (runs.flatMap Run.chunks).head? = some p → continues run.first p.2 = false := by
    intro p hp
    cases runs with
    | nil => cases hp
    | cons next runs =>
      cases hp
      exact eq_false_of_ne_true fun hcont => (List.isChain_cons_cons.1 h.apart).1 (continues_iff.1 hcont)
  rw [htail, List.takeWhile_append_of_pos hin, List.dropWhile_append_of_pos hin]
  cases hrest : runs.flatMap Run.chunks with
  | nil => exact ⟨by simp, hrest, hothers, h.apart.tail⟩
  | cons p rest =>
    have hp := hstop p (by rw [hrest]; rfl)
    rw [List.takeWhile_cons_of_neg (by simp [hp]), List.dropWhile_cons_of_neg (by simp [hp]),
      List.append_nil]
    exact ⟨rfl, hrest, hothers, h.apart.tail⟩

theorem Runs.unique {chunks : List (Nat × Record)} {runs others : List Run} (h : Runs chunks runs)
    (k : Runs chunks others) : others = runs := by
  induction runs generalizing chunks others with
  | nil =>
    cases others with
    | nil => rfl
    | cons run others => exact absurd (h.chunks_eq.trans k.chunks_eq.symm) (by simp [Run.chunks])
  | cons run runs ih =>
    cases others with
    | nil => exact absurd (k.chunks_eq.trans h.chunks_eq.symm) (by simp [Run.chunks])
    | cons other others =>
      have hhead := h.chunks_eq.trans k.chunks_eq.symm
      simp only [List.flatMap_cons, Run.chunks, List.cons_append, List.cons.injEq, Prod.mk.injEq] at hhead
      obtain ⟨⟨hoffset, hfirst⟩, _⟩ := hhead
      obtain ⟨hlater, hruns⟩ := h.tail_eq
      obtain ⟨hlater', hothers⟩ := k.tail_eq
      rw [← hfirst] at hlater' hothers
      obtain ⟨offset, first, later⟩ := run
      obtain ⟨offset', first', later'⟩ := other
      dsimp only at hoffset hfirst hlater hlater'
      rw [hlater, hlater', hoffset, hfirst, ih hruns hothers]

/-! ## Merging a run -/

namespace Run

/-- Merging never changes the control number, since the `001` that has it stays in front. -/
theorem controlNumber?_record {run : Run} (h : run.Alike) :
    run.record.controlNumber? = run.first.controlNumber? := by
  unfold record
  split
  · rfl
  · next hne =>
    obtain ⟨chunk, hchunk⟩ := List.exists_mem_of_ne_nil _ hne
    obtain ⟨n, hn, _⟩ := h chunk hchunk
    rw [hn]
    unfold Record.controlNumber? at hn ⊢
    split at hn
    · next f fs hfields =>
      split at hn
      · next htag =>
        have hle : ∀ g ∈ fs ++ added run.later, f.rank ≤ g.rank := by
          intro g _
          rw [rank_eq_zero_iff.2 htag]
          exact Nat.zero_le _
        simp only [hfields, List.cons_append, sortFields_cons hle, if_pos htag, hn]
      · cases hn
    · cases hn

theorem sameNumber_record {run : Run} (h : run.Alike) (r : Record) :
    SameNumber run.record r ↔ SameNumber run.first r := by
  unfold SameNumber
  rw [controlNumber?_record h]

theorem added_append (xs ys : List (Nat × Record)) : added (xs ++ ys) = added xs ++ added ys :=
  List.flatMap_append

/-- Sorting what is merged so far does not show in the end. -/
theorem record_snoc {run : Run} (h : run.Alike) {chunk : Nat × Record}
    (hchunk : SameNumber run.first chunk.2) :
    ({ run with later := run.later ++ [chunk] } : Run).record = run.record.merge chunk.2 := by
  have hsome : run.record.controlNumber?.isSome = true := by
    obtain ⟨n, hn, _⟩ := hchunk
    rw [controlNumber?_record h, hn]
    rfl
  have hone : added [chunk] = chunk.2.fields.filter (·.tag ≠ Tag.controlNumber) := by
    simp [added]
  have hmerge : run.record.merge chunk.2 = (run.record.appendAll (added [chunk])).sorted := by
    rw [Record.merge, if_pos hsome, hone]
  have hwhole : ({ run with later := run.later ++ [chunk] } : Run).record =
      { run.first with
        fields := sortFields (run.first.fields ++ added (run.later ++ [chunk]))
        size := run.first.size + totalSize (added (run.later ++ [chunk])) } :=
    if_neg (by simp)
  rw [hmerge, hwhole, added_append]
  unfold record Record.appendAll Record.sorted
  split
  · next hnil => simp [hnil, added]
  · simp only [totalSize_append, ← List.append_assoc, sortFields_append_left, Nat.add_assoc]

end Run

/-! ## Taking in runs -/

namespace Grouping

theorem pushAll_later (run : Run) (more : List (Nat × Record))
    (h : ({ run with later := run.later ++ more } : Run).Alike) :
    pushAll ⟨some (run.offset, run.record)⟩ more =
      ([], ⟨some (run.offset, ({ run with later := run.later ++ more } : Run).record)⟩) := by
  induction more generalizing run with
  | nil => simp [pushAll]
  | cons chunk more ih =>
    have halike : run.Alike := fun c hc => h c (List.mem_append_left _ hc)
    have hchunk : SameNumber run.first chunk.2 :=
      h chunk (List.mem_append_right _ List.mem_cons_self)
    have hcont : continues run.record chunk.2 = true :=
      continues_iff.2 ((run.sameNumber_record halike _).2 hchunk)
    have hmore := ih { run with later := run.later ++ [chunk] }
      (by simpa only [List.append_assoc, List.singleton_append] using h)
    simp only [pushAll, push, hcont, if_true, ← Run.record_snoc halike hchunk, hmore,
      List.append_assoc, List.singleton_append]
    rfl

/-- A run of another control number sends out what is held back, and takes its place. -/
theorem pushAll_run {g : Grouping} {run : Run} (h : run.Alike)
    (hother : ∀ held ∈ g.held, ¬SameNumber held.2 run.first) :
    g.pushAll run.chunks = ((g.held.map Prod.snd).toList, ⟨some (run.offset, run.record)⟩) := by
  have hfirst : g.push run.offset run.first =
      (g.held.map Prod.snd, ⟨some (run.offset, run.first)⟩) := by
    unfold push
    split
    · next hnone => rw [hnone]; rfl
    · next start r hsome =>
      rw [if_neg (fun hcont => hother _ hsome (continues_iff.1 hcont)), hsome]
      rfl
  have hlater := pushAll_later ⟨run.offset, run.first, []⟩ run.later h
  have hrecord : (⟨run.offset, run.first, []⟩ : Run).record = run.first := rfl
  rw [hrecord] at hlater
  simp only [Run.chunks, pushAll, hfirst, hlater, List.append_nil]
  rfl

/-- All runs but the last come out, and what there is of the last is held back at its offset. -/
theorem pushAll_runs {g : Grouping} (runs : List Run) (run : Run) (h : ∀ r ∈ runs ++ [run], r.Alike)
    (hapart : (runs ++ [run]).IsChain fun r next => ¬SameNumber r.first next.first)
    (hother : ∀ held ∈ g.held, ∀ r ∈ (runs ++ [run]).head?, ¬SameNumber held.2 r.first) :
    g.pushAll (runs.flatMap Run.chunks ++ run.chunks) =
      ((g.held.map Prod.snd).toList ++ runs.map Run.record, ⟨some (run.offset, run.record)⟩) := by
  induction runs generalizing g with
  | nil =>
    rw [List.flatMap_nil, List.nil_append, List.map_nil, List.append_nil]
    exact pushAll_run (h run (by simp)) fun held hheld => hother held hheld run rfl
  | cons first runs ih =>
    rw [List.cons_append] at h hapart
    obtain ⟨hfirst, hrest⟩ := List.forall_mem_cons.1 h
    have hfirstpush := pushAll_run hfirst fun held hheld => hother held hheld first rfl
    have hnext : ∀ r ∈ (runs ++ [run]).head?, ¬SameNumber first.record r.first := by
      intro r hr hsame
      rw [Run.sameNumber_record hfirst] at hsame
      exact (List.isChain_cons.1 hapart).1 r hr hsame
    have hpush := ih (g := ⟨some (first.offset, first.record)⟩) hrest hapart.tail
      (by rintro held ⟨⟩ r hr; exact hnext r hr)
    rw [List.flatMap_cons, List.append_assoc, pushAll_append, hfirstpush, hpush]
    simp

theorem returned_of_runs {chunks : List (Nat × Record)} {runs : List Run} (h : Runs chunks runs) :
    empty.returned chunks = runs.map Run.record := by
  obtain ⟨hchunks, halike, hapart⟩ := h
  rcases List.eq_nil_or_concat runs with rfl | ⟨init, last, rfl⟩
  · rw [← hchunks]
    rfl
  · rw [List.concat_eq_append] at *
    have hpush := pushAll_runs (g := empty) init last halike hapart (by simp [empty])
    rw [← hchunks, List.flatMap_append, List.flatMap_singleton, returned, hpush, List.map_append]
    rfl

/-- In the middle of a run its offset is that of its first physical record. -/
theorem heldOffset?_of_runs {chunks : List (Nat × Record)} {done rest : List Run} {run : Run}
    {taken left : List (Nat × Record)} (h : Runs chunks (done ++ run :: rest))
    (htaken : run.chunks = taken ++ left) (hne : taken ≠ []) :
    (empty.pushAll (done.flatMap Run.chunks ++ taken)).2.heldOffset? = some run.offset := by
  obtain ⟨chunk, taken, rfl⟩ := List.exists_cons_of_ne_nil hne
  rw [Run.chunks, List.cons_append, List.cons.injEq] at htaken
  obtain ⟨rfl, hlater⟩ := htaken
  have hdone : ∀ r ∈ done, r.Alike := fun r hr => h.alike r (List.mem_append_left _ hr)
  have hrun : run.Alike := h.alike run (List.mem_append_right _ List.mem_cons_self)
  have hpart : Run.Alike ⟨run.offset, run.first, taken⟩ := fun chunk hchunk =>
    hrun chunk (by rw [hlater]; exact List.mem_append_left _ hchunk)
  have hchain : (done ++ [Run.mk run.offset run.first taken]).IsChain
      fun r next => ¬SameNumber r.first next.first := by
    have happart := List.isChain_append.1 h.apart
    exact List.isChain_append.2 ⟨happart.1, .singleton _, by simpa using happart.2.2⟩
  have hpush := pushAll_runs (g := empty) done ⟨run.offset, run.first, taken⟩
    (by simpa [or_imp, forall_and] using ⟨hdone, hpart⟩) hchain (by simp [empty])
  rw [Run.chunks] at hpush
  rw [hpush]
  rfl

/-! ## Shared out fields -/

/-- Chunks that share out the fields behind copies of one control number are a single run. -/
theorem runs_of_shares {number : Field} {parts : List (List Field)} {chunks : List (Nat × Record)}
    (htag : number.tag = Tag.controlNumber) (hparts : parts ≠ [])
    (hchunks : chunks.map (fun chunk => chunk.2.fields) = parts.map (number :: ·)) :
    ∃ run, Runs chunks [run] := by
  have hnumber : ∀ chunk ∈ chunks, chunk.2.controlNumber? = some number.contents := by
    intro chunk hchunk
    have hfields : chunk.2.fields ∈ parts.map (number :: ·) :=
      hchunks ▸ List.mem_map_of_mem (f := fun chunk : Nat × Record => chunk.2.fields) hchunk
    obtain ⟨part, _, hpart⟩ := List.mem_map.1 hfields
    rw [Record.controlNumber?, ← hpart]
    exact if_pos htag
  cases chunks with
  | nil => exact absurd (List.map_eq_nil_iff.1 hchunks.symm) hparts
  | cons chunk later =>
    obtain ⟨hfirst, hlater⟩ := List.forall_mem_cons.1 hnumber
    refine ⟨⟨chunk.1, chunk.2, later⟩, ?_, ?_, .singleton _⟩
    · simp [Run.chunks]
    · rw [List.forall_mem_singleton]
      exact fun other hother => ⟨number.contents, hfirst, hlater other hother⟩

theorem added_of_shares {number : Field} (htag : number.tag = Tag.controlNumber)
    {parts : List (List Field)} (hothers : ∀ f ∈ parts.flatten, f.tag ≠ Tag.controlNumber)
    {later : List (Nat × Record)}
    (hlater : later.map (fun chunk => chunk.2.fields) = parts.map (number :: ·)) :
    Run.added later = parts.flatten := by
  have hkept : ∀ part ∈ parts,
      ((number :: part).filter fun f => f.tag ≠ Tag.controlNumber) = part := by
    intro part hpart
    rw [List.filter_cons_of_neg (by simp [htag]), List.filter_eq_self]
    exact fun f hf => decide_eq_true (hothers f (List.mem_flatten.2 ⟨part, hpart, hf⟩))
  calc Run.added later
      = (later.map fun chunk => chunk.2.fields).flatMap
          fun fields => fields.filter fun f => f.tag ≠ Tag.controlNumber := by
        rw [List.flatMap_map]
        rfl
    _ = parts.flatMap fun part => (number :: part).filter fun f => f.tag ≠ Tag.controlNumber := by
        rw [hlater, List.flatMap_map]
    _ = parts.flatten := by
        rw [List.flatMap_def, List.map_congr_left hkept, List.map_id']

theorem fields_of_shares {number : Field} {parts : List (List Field)} {chunks : List (Nat × Record)}
    {run : Run} (hrun : Runs chunks [run]) (htag : number.tag = Tag.controlNumber)
    (hothers : ∀ f ∈ parts.flatten, f.tag ≠ Tag.controlNumber)
    (hordered : Ordered (number :: parts.flatten))
    (hchunks : chunks.map (fun chunk => chunk.2.fields) = parts.map (number :: ·)) :
    run.record.fields = number :: parts.flatten := by
  obtain ⟨hchunkseq, _, _⟩ := hrun
  rw [List.flatMap_singleton, Run.chunks] at hchunkseq
  subst hchunkseq
  cases parts with
  | nil => cases hchunks
  | cons part parts =>
    rw [List.map_cons, List.map_cons, List.cons.injEq] at hchunks
    obtain ⟨hfirst, hlater⟩ := hchunks
    dsimp only at hfirst
    have hadded := added_of_shares htag
      (fun f hf => hothers f (by rw [List.flatten_cons]; exact List.mem_append_right _ hf)) hlater
    unfold Run.record
    split
    · next hnil =>
      rw [hnil] at hadded
      rw [hfirst, List.flatten_cons, ← hadded]
      simp [Run.added]
    · dsimp only
      rw [hadded, hfirst, List.cons_append, ← List.flatten_cons]
      exact sortFields_of_ordered hordered

end Grouping

/-! ## Main result -/

/-- **Grouping.** Physical records with any fields in any order come out as one record for each of the
longest runs that share a control number, and in the middle of a run the offset held back is that of its
first one. So the fields of a record are put together again, however they were shared out. -/
theorem returned_runs :
    (∀ chunks : List (Nat × Record), ∃ runs, Runs chunks runs ∧
      (∀ others, Runs chunks others → others = runs) ∧
      Grouping.empty.returned chunks = runs.map Run.record ∧
      ∀ done run rest taken left, runs = done ++ run :: rest → run.chunks = taken ++ left → taken ≠ [] →
        (Grouping.empty.pushAll (done.flatMap Run.chunks ++ taken)).2.heldOffset? = some run.offset) ∧
    ∀ (number : Field) (parts : List (List Field)) (chunks : List (Nat × Record)),
      number.tag = Tag.controlNumber → (∀ f ∈ parts.flatten, f.tag ≠ Tag.controlNumber) →
      Ordered (number :: parts.flatten) → parts ≠ [] →
      chunks.map (fun chunk => chunk.2.fields) = parts.map (number :: ·) →
      ∃ record, Grouping.empty.returned chunks = [record] ∧
        record.fields = number :: parts.flatten := by
  constructor
  · intro chunks
    obtain ⟨runs, hruns⟩ := exists_runs chunks
    refine ⟨runs, hruns, fun others => hruns.unique, Grouping.returned_of_runs hruns, ?_⟩
    rintro done run rest taken left rfl htaken hne
    exact Grouping.heldOffset?_of_runs hruns htaken hne
  · intro number parts chunks htag hothers hordered hparts hchunks
    obtain ⟨run, hrun⟩ := Grouping.runs_of_shares htag hparts hchunks
    exact ⟨run.record, Grouping.returned_of_runs hrun,
      Grouping.fields_of_shares hrun htag hothers hordered hchunks⟩

/-- A title and a carrier type in three physical records, the second of which has a control number only. -/
theorem returned_runs_shared :
    let number : Field := ⟨Tag.controlNumber, "1"⟩
    let parts : List (List Field) :=
      [[⟨Tag.titleStatement, "10\x1FaA"⟩], [], [⟨Tag.carrierType, "  \x1FbB"⟩]]
    let chunks := parts.zipIdx.map fun (part, i) =>
      (100 * i, Record.ofParts (Leader.fresh .languageMaterial .serial) (number :: part))
    ∃ record, Grouping.empty.returned chunks = [record] ∧
      record.fields = number :: parts.flatten := by
  intro number parts chunks
  exact returned_runs.2 number parts chunks rfl (by decide) (by unfold Ordered; decide) (by decide) rfl

end Marc21.Iso2709
