import Marc21.Format.Writer
import Marc21.Proofs.Iso2709.Session

/-!
What a finished output is worth. A sink is given a journal of the calls on it, so that one can say whether the
last byte was flushed. A writer that finishes has flushed its output then, unless it is one of MARC-XML whose
collection was closed by a call that failed to flush (`finish_flushed`): the writer counts as finished, so that
the next call to finish does not flush again.
-/

namespace Marc21

open Iso2709 (Call)

/-! ## A journal of a sink -/

/-- A call on a sink, and whether it succeeded. -/
inductive SinkCall where
  | write (bs : Bytes) (ok : Bool)
  | flush (ok : Bool)

/-- What a call hands over. -/
def SinkCall.bytes : SinkCall → Bytes
  | .write bs _ => bs
  | .flush _ => []

/-- A sink with a journal of the calls on it, the last one first. -/
structure Journaled (σ : Type) where
  sink : σ
  journal : List SinkCall

/-- A flush succeeded, and no byte was handed over since. -/
def Flushed (journal : List SinkCall) : Prop :=
  ∃ later earlier, journal = later ++ .flush true :: earlier ∧ ∀ c ∈ later, c.bytes = []

theorem flushed_cons {c : SinkCall} {journal : List SinkCall} :
    Flushed (c :: journal) ↔ c = .flush true ∨ c.bytes = [] ∧ Flushed journal := by
  constructor
  · rintro ⟨later, earlier, heq, hlater⟩
    cases later with
    | nil => exact .inl (List.cons.inj heq).1
    | cons d later =>
      obtain ⟨rfl, rfl⟩ := List.cons.inj heq
      obtain ⟨hc, hlater⟩ := List.forall_mem_cons.1 hlater
      exact .inr ⟨hc, later, earlier, rfl, hlater⟩
  · rintro (rfl | ⟨hc, later, earlier, rfl, hlater⟩)
    · exact ⟨[], journal, rfl, by simp⟩
    · exact ⟨c :: later, earlier, rfl, List.forall_mem_cons.2 ⟨hc, hlater⟩⟩

theorem not_flushed_cons_write {bs : Bytes} (hbs : bs ≠ []) {ok : Bool} {journal : List SinkCall} :
    ¬ Flushed (.write bs ok :: journal) := by
  rw [flushed_cons]
  simp [SinkCall.bytes, hbs]

namespace Journaled

variable {σ : Type}

def ofSink (sink : σ) : Journaled σ := ⟨sink, []⟩

variable [ByteSink σ]

instance : ByteSink (Journaled σ) where
  write s bs :=
    let (result, sink) := ByteSink.write s.sink bs
    (result, ⟨sink, .write bs result.isOk :: s.journal⟩)
  flush s :=
    let (result, sink) := ByteSink.flush s.sink
    (result, ⟨sink, .flush result.isOk :: s.journal⟩)

/-- A flush counts if it succeeds. -/
theorem flushed_flush (s : Journaled σ) : Flushed (ByteSink.flush s).2.journal ↔
    (ByteSink.flush s).1 = .ok () ∨ Flushed s.journal := by
  change Flushed (.flush (ByteSink.flush s.sink).1.isOk :: s.journal) ↔ (ByteSink.flush s.sink).1 = .ok () ∨ _
  rw [flushed_cons]
  cases (ByteSink.flush s.sink).1 <;> simp [SinkCall.bytes, Except.isOk, Except.toBool]

/-- The last piece stands on top if all were taken. -/
theorem writeAll_last {s t : Journaled σ} (pieces : List Bytes) (last : Bytes)
    (h : ByteSink.writeAll s (pieces ++ [last]) = (.ok (), t)) :
    ∃ earlier, t.journal = .write last true :: earlier := by
  induction pieces generalizing s with
  | nil =>
    rw [List.nil_append, ByteSink.writeAll] at h
    split at h
    · next u hwrite =>
      cases h
      obtain ⟨hresult, rfl⟩ := Prod.mk.inj hwrite
      exact ⟨s.journal, by rw [hresult]; rfl⟩
    · cases h
  | cons bs pieces ih =>
    rw [List.cons_append, ByteSink.writeAll] at h
    split at h
    · exact ih h
    · cases h

end Journaled

/-! ## Binary writers -/

namespace Iso2709.Writer

variable {σ : Type} [ByteSink σ] {w : Writer (Journaled σ)}

theorem flushed_flush : Flushed w.flush.state.sink.journal ↔
    w.flush.result = .ok () ∨ Flushed w.sink.journal := by
  have hflush := w.sink.flushed_flush
  unfold flush
  split
  all_goals
    next heq =>
      rw [heq] at hflush
      simpa using hflush

theorem flush_finished : w.flush.state.finished = w.finished := by
  unfold flush
  split <;> rfl

/-- Every call to finish flushes. -/
theorem flushed_finish (h : w.finish.result = .ok ()) : Flushed w.finish.state.sink.journal := by
  have hflushed := flushed_flush (w := w)
  unfold finish at h ⊢
  split
  · next heq =>
    rw [heq] at hflushed
    exact hflushed.2 (.inl rfl)
  · next hfailed =>
    split at h
    · next heq => exact absurd heq (hfailed _ _)
    · exact hflushed.2 (.inl h)

/-- A writer is finished only if that succeeds. -/
theorem finish_finished (h : w.finish.result ≠ .ok ()) : w.finish.state.finished = w.finished := by
  unfold finish at h ⊢
  split
  · next heq =>
    rw [heq] at h
    exact absurd rfl h
  · exact w.flush_finished

end Iso2709.Writer

/-! ## Writers of documents -/

namespace Slim.Writer

variable {σ : Type}

section

variable [ByteSink σ] (w : Writer σ)

theorem put_finished (ms : List Xml.Mark) : (w.put ms).2.finished = w.finished := by
  induction ms generalizing w with
  | nil => rfl
  | cons m ms ih =>
    rw [put]
    dsimp only
    split
    · exact ih _
    · rfl

theorem start_finished : w.start.2.finished = w.finished := by
  have hput := w.put_finished opening
  unfold start
  split
  · rfl
  · split
    · next heq =>
      rw [heq] at hput
      exact hput
    · exact hput

/-- To write records finishes nothing. -/
theorem write_finished (r : Record) : (w.write r).state.finished = w.finished := by
  have hstart := w.start_finished
  unfold write
  split
  · rfl
  · split
    · next heq =>
      rw [heq] at hstart
      exact hstart
    · next opened heq =>
      rw [heq] at hstart
      have hput := opened.put_finished (recordMarks r)
      split
      all_goals
        next heq =>
          rw [heq] at hput
          exact hput.trans hstart

theorem flush_finished : w.flush.state.finished = w.finished := by
  unfold flush
  split <;> rfl

theorem write_of_finished (h : w.finished = true) (r : Record) : (w.write r).state = w := by
  rw [write, if_pos h]

theorem finish_of_finished (h : w.finished = true) : w.finish = ⟨.ok (), w, []⟩ := by
  rw [finish, if_pos h]

end

variable [ByteSink σ] {w : Writer (Journaled σ)}

theorem flushed_flush : Flushed w.flush.state.sink.journal ↔
    w.flush.result = .ok () ∨ Flushed w.sink.journal := by
  have hflush := w.sink.flushed_flush
  unfold flush
  split
  all_goals
    next heq =>
      rw [heq] at hflush
      simpa using hflush

/-- The end tag is the last thing that is handed over, so it has yet to be flushed. -/
theorem put_stop_not_flushed {v : Writer (Journaled σ)} {name : String}
    (h : w.put [.stop name] = (.ok (), v)) : ¬ Flushed v.sink.journal := by
  rw [put] at h
  dsimp only at h
  split at h
  · next sink hall =>
    cases h
    obtain ⟨earlier, hjournal⟩ := Journaled.writeAll_last (_ ++ [_, _]) (Utf8.encode ">")
      (by rw [← hall, List.append_assoc]; rfl)
    dsimp only
    rw [hjournal]
    exact not_flushed_cons_write (by decide)
  · cases h

/-- To finish either fails and closes nothing, or it closes the collection and then comes down to a flush. -/
theorem finish_cases (hw : w.finished = false) :
    w.finish.result ≠ .ok () ∧ w.finish.state.finished = false ∨
      ∃ closed : Writer (Journaled σ), closed.finished = true ∧ ¬ Flushed closed.sink.journal ∧
        w.finish = closed.flush := by
  have hstart := w.start_finished
  rw [finish, if_neg (by simp [hw])]
  split
  · next heq =>
    rw [heq] at hstart
    exact .inl ⟨by simp, hstart.trans hw⟩
  · next opened heq =>
    rw [heq] at hstart
    have hput := opened.put_finished [.stop "collection"]
    split
    · next heq =>
      rw [heq] at hput
      exact .inl ⟨by simp, hput.trans (hstart.trans hw)⟩
    · next closed heq =>
      exact .inr ⟨{ closed with finished := true }, rfl, (put_stop_not_flushed heq :), rfl⟩

end Slim.Writer

/-! ## Writers of either format -/

namespace RecordWriter

variable {σ : Type}

def finished : RecordWriter σ → Bool
  | binary w => w.finished
  | xml w => w.finished

theorem format_ofFormat (f : RecordFormat) (sink : σ) (indent : Option Nat) :
    (ofFormat f sink indent).format = f := by
  cases f <;> cases indent <;> rfl

section

variable [ByteSink σ]

def call (w : RecordWriter σ) : Call → Outcome (RecordWriter σ) Unit
  | .write r => w.write r
  | .flush => w.flush
  | .finish => w.finish

/-- The writer after some calls, whatever they gave. -/
def after (w : RecordWriter σ) (calls : List Call) : RecordWriter σ :=
  calls.foldl (fun w c => (w.call c).state) w

/-- To finish fails, and yet the writer counts as finished. -/
def FinishedInVain (w : RecordWriter σ) : Prop :=
  w.finished = false ∧ w.finish.result ≠ .ok () ∧ w.finish.state.finished = true

/-- One call finished the writer in vain, and every flush that was called for since failed. -/
def LeftUnflushed (start : RecordWriter σ) (calls : List Call) : Prop :=
  ∃ earlier later, calls = earlier ++ .finish :: later ∧ FinishedInVain (start.after earlier) ∧
    ∀ before, before ++ [.flush] <+: later →
      (start.after (earlier ++ .finish :: before)).flush.result ≠ .ok ()

theorem after_append (w : RecordWriter σ) (calls : List Call) (c : Call) :
    w.after (calls ++ [c]) = ((w.after calls).call c).state :=
  List.foldl_append

theorem format_call (w : RecordWriter σ) (c : Call) : (w.call c).state.format = w.format := by
  cases w <;> cases c <;> rfl

theorem format_after (w : RecordWriter σ) (calls : List Call) : (w.after calls).format = w.format := by
  induction calls generalizing w with
  | nil => rfl
  | cons c calls ih => exact (ih _).trans (w.format_call c)

theorem leftUnflushed_append {start : RecordWriter σ} {calls : List Call} {c : Call} :
    LeftUnflushed start (calls ++ [c]) ↔
      LeftUnflushed start calls ∧ (c = .flush → (start.after calls).flush.result ≠ .ok ()) ∨
      c = .finish ∧ FinishedInVain (start.after calls) := by
  constructor
  · rintro ⟨earlier, later, heq, hvain, hflushes⟩
    rcases List.eq_nil_or_concat later with rfl | ⟨later, d, rfl⟩
    · obtain ⟨rfl, hc⟩ := List.append_inj' heq rfl
      exact .inr ⟨List.singleton_inj.1 hc, hvain⟩
    · rw [List.concat_eq_append, ← List.cons_append, ← List.append_assoc] at heq
      obtain ⟨rfl, hc⟩ := List.append_inj' heq rfl
      obtain rfl := List.singleton_inj.1 hc
      rw [List.concat_eq_append] at hflushes
      refine .inl ⟨⟨earlier, later, rfl, hvain, fun before hbefore => hflushes before ?_⟩, ?_⟩
      · exact hbefore.trans (List.prefix_append _ _)
      · rintro rfl
        exact hflushes later (List.prefix_refl _)
  · rintro (⟨⟨earlier, later, rfl, hvain, hflushes⟩, hlast⟩ | ⟨rfl, hvain⟩)
    · refine ⟨earlier, later ++ [c], by simp, hvain, fun before hbefore => ?_⟩
      rcases List.prefix_concat_iff.1 hbefore with heq | hbefore
      · obtain ⟨rfl, hc⟩ := List.append_inj' heq rfl
        exact hlast (List.singleton_inj.1 hc).symm
      · exact hflushes before hbefore
    · exact ⟨calls, [], rfl, hvain, fun before hbefore => by simp at hbefore⟩

end

/-- The collection was closed, and the end of it was not flushed. -/
def Unsealed : RecordWriter (Journaled σ) → Prop
  | binary _ => False
  | xml w => w.finished = true ∧ ¬ Flushed w.sink.journal

theorem Unsealed.format_eq {w : RecordWriter (Journaled σ)} (h : Unsealed w) : w.format = .xml := by
  cases w with
  | binary w => exact absurd h not_false
  | xml w => rfl

theorem not_unsealed_ofFormat (f : RecordFormat) (sink : Journaled σ) (indent : Option Nat) :
    ¬ Unsealed (ofFormat f sink indent) := by
  cases f with
  | binary => exact not_false
  | xml =>
    cases indent with
    | none => exact fun h => Bool.false_ne_true h.1
    | some spaces => exact fun h => Bool.false_ne_true h.1

variable [ByteSink σ] {w : RecordWriter (Journaled σ)}

theorem unsealed_write (r : Record) : Unsealed (w.write r).state ↔ Unsealed w := by
  cases w with
  | binary w => exact Iff.rfl
  | xml w =>
    change (w.write r).state.finished = true ∧ ¬ Flushed (w.write r).state.sink.journal ↔
      w.finished = true ∧ ¬ Flushed w.sink.journal
    cases hw : w.finished with
    | true => rw [w.write_of_finished hw, hw]
    | false => simp [w.write_finished, hw]

theorem unsealed_flush : Unsealed w.flush.state ↔ Unsealed w ∧ w.flush.result ≠ .ok () := by
  cases w with
  | binary w => exact (iff_of_eq (false_and _)).symm
  | xml w =>
    change w.flush.state.finished = true ∧ ¬ Flushed w.flush.state.sink.journal ↔
      (w.finished = true ∧ ¬ Flushed w.sink.journal) ∧ w.flush.result ≠ .ok ()
    rw [w.flush_finished, Slim.Writer.flushed_flush, not_or, and_assoc, and_comm (a := ¬ Flushed _)]

theorem not_finishedInVain_binary {w : Iso2709.Writer (Journaled σ)} : ¬ FinishedInVain (binary w) := by
  rintro ⟨hw, hresult, hfinished⟩
  have hsame : (binary w).finish.state.finished = w.finished := Iso2709.Writer.finish_finished hresult
  cases hfinished.symm.trans (hsame.trans hw)

theorem unsealed_finish : Unsealed w.finish.state ↔ Unsealed w ∨ FinishedInVain w := by
  cases w with
  | binary w =>
    exact ⟨False.elim, fun h => h.elim id not_finishedInVain_binary⟩
  | xml w =>
    change w.finish.state.finished = true ∧ ¬ Flushed w.finish.state.sink.journal ↔
      (w.finished = true ∧ ¬ Flushed w.sink.journal) ∨
        w.finished = false ∧ w.finish.result ≠ .ok () ∧ w.finish.state.finished = true
    cases hw : w.finished with
    | true =>
      rw [w.finish_of_finished hw, hw]
      simp
    | false =>
      rcases Slim.Writer.finish_cases hw with ⟨hresult, hfinished⟩ | ⟨closed, hclosed, hjournal, hfinish⟩
      · simp [hfinished]
      · rw [hfinish, closed.flush_finished, Slim.Writer.flushed_flush]
        simp [hclosed, hjournal]

/-- What one call makes of it. -/
theorem unsealed_call {c : Call} : Unsealed (w.call c).state ↔
    Unsealed w ∧ (c = .flush → w.flush.result ≠ .ok ()) ∨ c = .finish ∧ FinishedInVain w := by
  cases c with
  | write r => simp [call, unsealed_write]
  | flush => simp [call, unsealed_flush]
  | finish => simp [call, unsealed_finish]

theorem unsealed_after (hw : ¬ Unsealed w) (calls : List Call) :
    Unsealed (w.after calls) ↔ LeftUnflushed w calls := by
  induction calls using List.reverseRecOn with
  | nil =>
    refine ⟨fun h => absurd h hw, ?_⟩
    rintro ⟨earlier, later, heq, _⟩
    simp at heq
  | append_singleton calls c ih => rw [after_append, unsealed_call, ih, leftUnflushed_append]

/-- To finish successfully is to flush, but for a collection that was closed before. -/
theorem flushed_iff_of_finish (h : w.finish.result = .ok ()) :
    Flushed w.finish.state.sink.journal ↔ ¬ Unsealed w := by
  cases w with
  | binary w => exact iff_of_true (Iso2709.Writer.flushed_finish h) not_false
  | xml w =>
    change w.finish.result = .ok () at h
    change Flushed w.finish.state.sink.journal ↔ ¬ (w.finished = true ∧ ¬ Flushed w.sink.journal)
    cases hw : w.finished with
    | true =>
      rw [w.finish_of_finished hw]
      simp
    | false =>
      rcases Slim.Writer.finish_cases hw with ⟨hresult, _⟩ | ⟨closed, _, _, hfinish⟩
      · exact absurd h hresult
      · rw [hfinish] at h ⊢
        rw [Slim.Writer.flushed_flush]
        simp [h]

/-! ## Main result -/

/-- **Finishing.** Let the writes and flushes of a sink fail when they will. If a call to finish a writer
succeeds, a flush of the sink has succeeded since the last byte was handed over. The one exception is with
MARC-XML: an earlier call to finish failed and finished the writer all the same, and every flush that was called
for since failed too. -/
theorem finish_flushed (f : RecordFormat) (sink : σ) (indent : Option Nat) (calls : List Call) :
    let start := ofFormat f (Journaled.ofSink sink) indent
    let w := start.after calls
    w.finish.result = .ok () →
      (f = .binary → Flushed w.finish.state.sink.journal) ∧
      (Flushed w.finish.state.sink.journal ↔ ¬ LeftUnflushed start calls) := by
  intro start w h
  have hflushed : Flushed w.finish.state.sink.journal ↔ ¬ Unsealed w := flushed_iff_of_finish h
  refine ⟨?_, hflushed.trans (not_congr ?_)⟩
  · rintro rfl
    rw [hflushed]
    intro hw
    have hformat : w.format = .xml := hw.format_eq
    rw [format_after, format_ofFormat] at hformat
    cases hformat
  · exact unsealed_after (not_unsealed_ofFormat f _ indent) calls

/-- A sink in memory takes all there is. -/
theorem finish_flushed_unbounded :
    let w := (ofFormat .xml (Journaled.ofSink BoundedSink.unbounded) none).after
      [.write (Iso2709.titled "1" "10\x1FaA"), .flush]
    w.finish.result = .ok () ∧ Flushed w.finish.state.sink.journal := by
  intro w
  have hfinish : w.finish.result = .ok () := rfl
  refine ⟨hfinish, (finish_flushed .xml BoundedSink.unbounded none _ hfinish).2.2 ?_⟩
  rintro ⟨earlier, later, heq, _⟩
  have hmem : Call.finish ∈ [Call.write (Iso2709.titled "1" "10\x1FaA"), .flush] := by
    rw [heq]
    simp
  simp at hmem

/-- A sink that cannot be flushed. The second call to finish succeeds, although nothing was flushed. -/
theorem finish_not_flushed :
    let sink : BoundedSink := { BoundedSink.unbounded with flushFailure := some (.reported "no flush") }
    let start := ofFormat .xml (Journaled.ofSink sink) none
    start.finish.result = .error (.streamFailed (.reported "no flush")) ∧
      start.finish.state.finish.result = .ok () ∧
      ¬ Flushed start.finish.state.finish.state.sink.journal := by
  intro sink start
  have hfailed : start.finish.result = .error (.streamFailed (.reported "no flush")) := rfl
  have hagain : start.finish.state.finish.result = .ok () := rfl
  have hvain : FinishedInVain start := ⟨rfl, by rw [hfailed]; simp, rfl⟩
  refine ⟨hfailed, hagain, fun hflushed => (flushed_iff_of_finish hagain).1 hflushed ?_⟩
  exact unsealed_finish.2 (.inr hvain)

end RecordWriter

end Marc21
