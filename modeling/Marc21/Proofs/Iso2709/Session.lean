import Marc21.Proofs.Iso2709.Acceptance
import Marc21.Proofs.Iso2709.Position

/-!
A writer in use, on a sink that does not fail. Whatever the calls, the sink holds the physical records of what
was accepted and nothing else, and the writer counts these records (`callAll_spec`). What it refuses it refuses
before the first byte, so that a refused record leaves the writer as it was (`callAll_accepted`).
-/

namespace Marc21.Iso2709

/-- A call on a writer that is in use. -/
inductive Call where
  | write (r : Record)
  | flush
  | finish
  deriving DecidableEq

/-- A record that the writer has nothing against. -/
structure Fit (r : Record) : Prop where
  valid : r.isValid = true
  length_le : ∀ f ∈ r.fields, f.contents.utf8ByteSize ≤ contentsLimit

/-- The records that were written by calls with these results. -/
def accepted (calls : List Call) (results : List (Except MarcError Unit)) : List Record :=
  (calls.zip results).filterMap fun
    | (.write r, .ok ()) => some r
    | _ => none

namespace Writer

variable {σ : Type} [ByteSink σ]

def call (w : Writer σ) : Call → Outcome (Writer σ) Unit
  | .write r => w.write r
  | .flush => w.flush
  | .finish => w.finish

/-- Makes calls one after the other, whatever they give, and lists the results. -/
def callAll (w : Writer σ) : List Call → List (Except MarcError Unit) × Writer σ
  | [] => ([], w)
  | c :: cs => ((w.call c).result :: ((w.call c).state.callAll cs).1, ((w.call c).state.callAll cs).2)

/-! ## Records that are fit to be written -/

theorem fit_iff {r : Record} :
    Fit r ↔ r.isValid = true ∧ ∀ f ∈ r.fields, f.contents.utf8ByteSize ≤ contentsLimit :=
  ⟨fun h => ⟨h.valid, h.length_le⟩, fun h => ⟨h.1, h.2⟩⟩

theorem fit_of_encoded {r : Record} {chunks : List Bytes} (h : encoded r = .ok chunks) :
    Fit r ∧ split r = .ok chunks := by
  obtain ⟨hvalid, hsplit⟩ := encoded_eq_ok h
  exact ⟨⟨hvalid, (split_eq_ok hsplit).1⟩, hsplit⟩

theorem encoded_of_fit {r : Record} (h : Fit r) :
    encoded r = .ok ((parts r.fields).map fun p => p.encode r.leader) :=
  encoded_of_isValid h.valid h.length_le

theorem encodeAll_eq (rs : List Record) : Reader.encodeAll rs =
    (rs.map fun r => (parts r.fields).map fun p => p.encode r.leader).flatten.flatten := by
  rw [Reader.encodeAll, List.flatMap_def, List.flatten_flatten, List.map_map]
  rfl

/-! ## One call -/

section

variable {k : Reliable σ} {base : Bytes} {calls : List Call} {results : List (Except MarcError Unit)}
  {w : Writer σ}

/-- A writer after calls with these results, on a sink that held something before. -/
structure Holding (k : Reliable σ) (base : Bytes) (calls : List Call)
    (results : List (Except MarcError Unit)) (w : Writer σ) : Prop where
  length_eq : calls.length = results.length
  sound : k.sound w.sink
  taken_eq : k.taken w.sink = base ++ Reader.encodeAll (accepted calls results)
  written_eq : w.recordsWritten = (accepted calls results).length
  fit : ∀ r ∈ accepted calls results, Fit r
  finished_iff : w.finished = true ↔ (Call.finish, .ok ()) ∈ calls.zip results

theorem holding_ofSink {sink : σ} (hsink : k.sound sink) :
    Holding k (k.taken sink) [] [] (ofSink sink) :=
  ⟨rfl, hsink, (List.append_nil _).symm, rfl, by simp [accepted], by simp [ofSink]⟩

/-- One more call, by what it makes of the writer. -/
theorem Holding.snoc (h : Holding k base calls results w) {c : Call} {result : Except MarcError Unit}
    {v : Writer σ} (hsound : k.sound v.sink)
    (htaken : k.taken v.sink = k.taken w.sink ++ Reader.encodeAll (accepted [c] [result]))
    (hwritten : v.recordsWritten = w.recordsWritten + (accepted [c] [result]).length)
    (hfit : ∀ r ∈ accepted [c] [result], Fit r)
    (hfinished : v.finished = true ↔ w.finished = true ∨ (c, result) = (.finish, .ok ())) :
    Holding k base (calls ++ [c]) (results ++ [result]) v := by
  have haccepted : accepted (calls ++ [c]) (results ++ [result]) =
      accepted calls results ++ accepted [c] [result] := by
    rw [accepted, List.zip_append h.length_eq, List.filterMap_append]
    rfl
  refine ⟨by simp [h.length_eq], hsound, ?_, ?_, ?_, ?_⟩
  · rw [htaken, h.taken_eq, haccepted, Reader.encodeAll, Reader.encodeAll, Reader.encodeAll,
      List.flatMap_append, List.append_assoc]
  · rw [hwritten, h.written_eq, haccepted, List.length_append]
  · rw [haccepted, List.forall_mem_append]
    exact ⟨h.fit, hfit⟩
  · rw [hfinished, h.finished_iff, List.zip_append h.length_eq, List.mem_append, List.zip_cons_cons,
      List.zip_nil_left, List.mem_singleton, eq_comm (a := (c, result))]

/-- What is fit is written by a writer that was not finished. -/
theorem Holding.write_fit (h : Holding k base calls results w) {r : Record} (hw : w.finished = false)
    (hr : Fit r) : (w.write r).result = .ok () ∧
      Holding k base (calls ++ [.write r]) (results ++ [.ok ()]) (w.write r).state := by
  obtain ⟨sink, notices, hwrite, hsink, htaken⟩ := write_spec k hw h.sound (encoded_of_fit hr)
  rw [hwrite]
  refine ⟨rfl, h.snoc hsink ?_ rfl (by simpa [accepted] using hr) (by simp)⟩
  rw [htaken]
  exact congrArg (_ ++ ·) (List.append_nil _).symm

/-- All else is refused before any of it is written. -/
theorem write_refused {r : Record} (h : ¬(w.finished = false ∧ Fit r)) :
    (∃ e, (w.write r).result = .error e) ∧ (w.write r).state = w := by
  cases hfinished : w.finished with
  | true =>
    rw [write, if_pos hfinished]
    exact ⟨⟨_, rfl⟩, rfl⟩
  | false =>
    cases hr : encoded r with
    | error e =>
      simp only [write, hfinished, hr]
      exact ⟨⟨e, rfl⟩, rfl⟩
    | ok chunks => exact absurd ⟨hfinished, (fit_of_encoded hr).1⟩ h

theorem write_eq_ok_iff (hs : k.sound w.sink) {r : Record} :
    (w.write r).result = .ok () ↔ w.finished = false ∧ Fit r := by
  constructor
  · intro h
    by_contra hrefused
    obtain ⟨⟨e, he⟩, _⟩ := write_refused hrefused
    cases he.symm.trans h
  · rintro ⟨hw, hr⟩
    obtain ⟨sink, notices, hwrite, _⟩ := write_spec k hw hs (encoded_of_fit hr)
    rw [hwrite]

theorem flush_eq (hs : k.sound w.sink) : ∃ sink, w.flush = ⟨.ok (), { w with sink }, []⟩ ∧
    k.sound sink ∧ k.taken sink = k.taken w.sink := by
  obtain ⟨sink, hflush, hsink, htaken⟩ := k.flush_spec hs
  exact ⟨sink, by rw [flush, hflush], hsink, htaken⟩

theorem finish_eq (hs : k.sound w.sink) :
    ∃ sink, w.finish = ⟨.ok (), { w with sink, finished := true }, []⟩ ∧
      k.sound sink ∧ k.taken sink = k.taken w.sink := by
  obtain ⟨sink, hflush, hsink, htaken⟩ := flush_eq hs
  exact ⟨sink, by rw [finish, hflush], hsink, htaken⟩

/-- Each call keeps count. -/
theorem Holding.call (h : Holding k base calls results w) (c : Call) :
    Holding k base (calls ++ [c]) (results ++ [(w.call c).result]) (w.call c).state := by
  cases c with
  | write r =>
    rw [Writer.call]
    by_cases hfit : w.finished = false ∧ Fit r
    · obtain ⟨hresult, hafter⟩ := h.write_fit hfit.1 hfit.2
      rw [hresult]
      exact hafter
    · obtain ⟨⟨e, hresult⟩, hstate⟩ := write_refused hfit
      rw [hresult, hstate]
      exact h.snoc h.sound (List.append_nil _).symm rfl (by simp [accepted]) (by simp)
  | flush =>
    obtain ⟨sink, hflush, hsink, htaken⟩ := flush_eq h.sound
    rw [Writer.call, hflush]
    exact h.snoc hsink (htaken.trans (List.append_nil _).symm) rfl (by simp [accepted]) (by simp)
  | finish =>
    obtain ⟨sink, hfinish, hsink, htaken⟩ := finish_eq h.sound
    rw [Writer.call, hfinish]
    exact h.snoc hsink (htaken.trans (List.append_nil _).symm) rfl (by simp [accepted]) (by simp)

/-! ## All calls -/

theorem Holding.callAll (h : Holding k base calls results w) (cs : List Call) :
    Holding k base (calls ++ cs) (results ++ (w.callAll cs).1) (w.callAll cs).2 := by
  induction cs generalizing w calls results with
  | nil =>
    rw [Writer.callAll, List.append_nil, List.append_nil]
    exact h
  | cons c cs ih =>
    have hlater := ih (h.call c)
    rw [List.append_assoc, List.append_assoc] at hlater
    exact hlater

theorem holding_callAll {sink : σ} (hsink : k.sound sink) (calls : List Call) :
    Holding k (k.taken sink) calls ((ofSink sink).callAll calls).1 ((ofSink sink).callAll calls).2 :=
  (holding_ofSink hsink).callAll calls

/-- The sink holds what the accepted records were split into. -/
theorem Holding.split (h : Holding k base calls results w) : ∃ chunks,
    List.Forall₂ (fun r pieces => split r = .ok pieces) (accepted calls results) chunks ∧
      k.taken w.sink = base ++ chunks.flatten.flatten := by
  refine ⟨(accepted calls results).map fun r => (parts r.fields).map fun p => p.encode r.leader, ?_, ?_⟩
  · rw [List.forall₂_map_right_iff, List.forall₂_same]
    exact fun r hr => (fit_of_encoded (encoded_of_fit (h.fit r hr))).2
  · rw [h.taken_eq, encodeAll_eq]

/-- Whether a record is accepted next. -/
theorem Holding.write_iff (h : Holding k base calls results w) (r : Record) :
    (w.write r).result = .ok () ↔ (Call.finish, .ok ()) ∉ calls.zip results ∧ Fit r := by
  rw [write_eq_ok_iff h.sound, ← h.finished_iff, Bool.not_eq_true]

end

/-! ## Main result -/

/-- **The sink holds what was accepted and nothing else.** Whatever the calls on a writer whose sink does not
fail, the sink has taken the physical records of the accepted records, in order, and the writer counts the
records. A record is accepted exactly if no earlier call finished the writer, the record is valid and no
contents are too long, and one that is refused leaves no trace. -/
theorem callAll_accepted (k : Reliable σ) {sink : σ} (hsink : k.sound sink) (calls : List Call) :
    let run := (ofSink sink).callAll calls
    let done := accepted calls run.1
    (∃ chunks, List.Forall₂ (fun r pieces => Iso2709.split r = .ok pieces) done chunks ∧
      k.taken run.2.sink = k.taken sink ++ chunks.flatten.flatten) ∧
    run.2.recordsWritten = done.length ∧
    (∀ r, (run.2.write r).result = .ok () ↔ (Call.finish, .ok ()) ∉ calls.zip run.1 ∧
      r.isValid = true ∧ ∀ f ∈ r.fields, f.contents.utf8ByteSize ≤ contentsLimit) ∧
    ∀ r e, (run.2.write r).result = .error e → (run.2.write r).state = run.2 := by
  intro run done
  have h : Holding k (k.taken sink) calls run.1 run.2 := holding_callAll hsink calls
  refine ⟨h.split, h.written_eq, fun r => ?_, fun r e hfailed => ?_⟩
  · rw [h.write_iff, fit_iff]
  · refine (write_refused fun hfit => ?_).2
    cases hfailed.symm.trans ((write_eq_ok_iff h.sound).2 hfit)

/-- A record without a control number is refused, and after the writer was finished a sound one is too. -/
theorem callAll_accepted_refused :
    let r := titled "1" "10\x1FaA"
    let unnumbered := Record.ofParts (Leader.fresh .languageMaterial .monographOrItem) []
    let run := (ofSink BoundedSink.unbounded).callAll [.write r, .write unnumbered, .finish, .write r]
    run.1.map Except.isOk = [true, false, true, false] ∧ run.2.recordsWritten = 1 ∧
      ∃ chunks, Iso2709.split r = .ok chunks ∧ run.2.sink.accepted.toList = chunks.flatten := by
  intro r unnumbered run
  let w := ofSink BoundedSink.unbounded
  have hspec := callAll_accepted BoundedSink.reliable BoundedSink.sound_unbounded
  have hfirst : (w.write r).result = .ok () :=
    ((hspec []).2.2.1 r).2 ⟨by simp, by decide, by decide⟩
  obtain ⟨e, hsecond⟩ : ∃ e, ((w.callAll [.write r]).2.write unnumbered).result = .error e := by
    have hiff := (hspec [.write r]).2.2.1 unnumbered
    cases h : ((w.callAll [.write r]).2.write unnumbered).result with
    | error e => exact ⟨e, rfl⟩
    | ok => exact absurd (hiff.1 h).2.1 (by decide)
  have hthird : (w.callAll [.write r, .write unnumbered]).2.finish.result = .ok () := by
    obtain ⟨sink, hfinish, _⟩ := finish_eq
      (holding_callAll BoundedSink.sound_unbounded [.write r, .write unnumbered]).sound
    rw [hfinish]
  obtain ⟨e', hfourth⟩ :
      ∃ e, ((w.callAll [.write r, .write unnumbered, .finish]).2.write r).result = .error e := by
    have hiff := (hspec [.write r, .write unnumbered, .finish]).2.2.1 r
    cases h : ((w.callAll [.write r, .write unnumbered, .finish]).2.write r).result with
    | error e => exact ⟨e, rfl⟩
    | ok => exact absurd (.tail _ (.tail _ (hthird ▸ .head _))) (hiff.1 h).1
  have hcalls : run.1 = [(w.write r).result, ((w.callAll [.write r]).2.write unnumbered).result,
      (w.callAll [.write r, .write unnumbered]).2.finish.result,
      ((w.callAll [.write r, .write unnumbered, .finish]).2.write r).result] := rfl
  rw [hfirst, hsecond, hthird, hfourth] at hcalls
  obtain ⟨⟨chunks, hchunks, htaken⟩, hwritten, _⟩ :=
    hspec [.write r, .write unnumbered, .finish, .write r]
  have hdone : accepted [.write r, .write unnumbered, .finish, .write r] run.1 = [r] := by
    rw [hcalls]
    rfl
  rw [hdone] at hwritten hchunks
  obtain ⟨pieces, _, hpieces, hnone, rfl⟩ := List.forall₂_cons_left_iff.1 hchunks
  obtain rfl := List.forall₂_nil_left_iff.1 hnone
  refine ⟨by rw [hcalls]; rfl, hwritten, pieces, hpieces, ?_⟩
  exact htaken.trans (by simp)

end Writer

end Marc21.Iso2709
