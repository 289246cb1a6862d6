import Marc21.Slim.Writer
import Marc21.Proofs.Stream.Sink
import Marc21.Proofs.Xml.Document

/-!
What a writer leaves on a sink that does not fail: one document of the records that were written, whatever
other calls came between and however the writer was closed (`session_spec`).
-/

namespace Marc21.Slim

open Xml (Mark Layout)

/-- A call on a writer that is in use. -/
inductive Call where
  | write (r : Record)
  | flush
  | indent (spaces : Nat)

/-- The record that a call writes. -/
def Call.record? : Call → Option Record
  | .write r => some r
  | .flush | .indent _ => none

/-- The ways to be done with a writer. A writer that was finished is given up as well. -/
inductive Closing where
  | finish
  | release
  | drop

/-- The marks of a whole document. -/
def document (rs : List Record) : List Mark :=
  opening ++ rs.flatMap recordMarks ++ [.stop "collection"]

namespace Writer

variable {σ : Type} [ByteSink σ]

def call (w : Writer σ) : Call → Except MarcError Unit × Writer σ
  | .write r => ((w.write r).result, (w.write r).state)
  | .flush => (w.flush.result, w.flush.state)
  | .indent spaces => (.ok (), w.withIndent spaces)

/-- Makes calls up to the first that fails. -/
def callAll (w : Writer σ) : List Call → Except MarcError Unit × Writer σ
  | [] => (.ok (), w)
  | c :: cs =>
    match w.call c with
    | (.ok (), w) => callAll w cs
    | failed => failed

def closeBy (w : Writer σ) : Closing → Except MarcError Unit × σ
  | .finish => (w.finish.result, w.finish.state.close.1)
  | .release => (w.release.result, w.release.state)
  | .drop => (.ok (), w.close.1)

/-- The whole use of a writer, which is given up early if a call fails. -/
def session (w : Writer σ) (calls : List Call) (closing : Closing) : Except MarcError Unit × σ :=
  match w.callAll calls with
  | (.ok (), w) => w.closeBy closing
  | (.error e, w) => (.error e, w.close.1)

/-! ## Marks on a sink -/

section

variable {k : Reliable σ} {base : Bytes} {l : Layout} {ms : List Mark} {w : Writer σ}

/-- A writer that has put marks behind what the sink had taken before, from a layout on. -/
structure Underway (k : Reliable σ) (base : Bytes) (l : Layout) (ms : List Mark) (w : Writer σ) :
    Prop where
  unfinished : w.finished = false
  sound : k.sound w.sink
  taken_eq : k.taken w.sink = base ++ l.bytes ms
  layout_eq : w.layout = l.after ms

theorem put_spec (h : Underway k base l ms w) (ns : List Mark) : ∃ v, w.put ns = (.ok (), v) ∧
    v.started = w.started ∧ Underway k base l (ms ++ ns) v := by
  induction ns generalizing w ms with
  | nil =>
    rw [List.append_nil]
    exact ⟨w, rfl, rfl, h⟩
  | cons n ns ih =>
    obtain ⟨sink, hall, hsink, htaken⟩ := k.writeAll_spec (w.layout.write n).1 h.sound
    have hnext : Underway k base l (ms ++ [n])
        { w with sink, layout := (w.layout.write n).2 } := by
      refine ⟨h.unfinished, hsink, ?_, ?_⟩
      · rw [htaken, h.taken_eq, h.layout_eq, Layout.bytes_append, List.append_assoc, Layout.bytes,
          Layout.bytes, List.append_nil]
      · rw [Layout.after_append, ← h.layout_eq]
        rfl
    obtain ⟨v, hput, hstarted, hv⟩ := ih hnext
    refine ⟨v, ?_, hstarted, ?_⟩
    · rw [put]
      dsimp only
      rw [hall]
      exact hput
    · rw [List.append_assoc] at hv
      exact hv

theorem flush_spec (hs : k.sound w.sink) : ∃ sink, w.flush = ⟨.ok (), { w with sink }, []⟩ ∧
    k.sound sink ∧ k.taken sink = k.taken w.sink := by
  obtain ⟨sink, hflush, hsink, htaken⟩ := k.flush_spec hs
  refine ⟨sink, ?_, hsink, htaken⟩
  rw [flush, hflush]

/-- Another sink that has taken the same bytes does as well. -/
theorem Underway.withSink (h : Underway k base l ms w) {sink : σ} (hsink : k.sound sink)
    (htaken : k.taken sink = k.taken w.sink) : Underway k base l ms { w with sink } :=
  ⟨h.unfinished, hsink, htaken.trans h.taken_eq, h.layout_eq⟩

end

/-! ## Calls -/

section

variable {k : Reliable σ} {base : Bytes} {rs : List Record} {w : Writer σ}

/-- A writer that can still write, after some records. Nothing is on the sink before the first. -/
inductive Ready (k : Reliable σ) (base : Bytes) : List Record → Writer σ → Prop where
  | fresh {l : Layout} {w : Writer σ} (hl : l.breaks = false) (hstarted : w.started = false)
      (h : Underway k base l [] w) : Ready k base [] w
  | opened {l : Layout} {rs : List Record} {w : Writer σ} (hl : l.breaks = false)
      (hstarted : w.started = true)
      (h : Underway k base l (opening ++ rs.flatMap recordMarks) w) : Ready k base rs w

theorem ready_ofSink {sink : σ} (hsink : k.sound sink) :
    Ready k (k.taken sink) [] (ofSink sink) :=
  .fresh (l := .compact) rfl rfl ⟨rfl, hsink, (List.append_nil _).symm, rfl⟩

theorem Ready.unfinished (h : Ready k base rs w) : w.finished = false := by
  cases h with
  | fresh _ _ h => exact h.unfinished
  | opened _ _ h => exact h.unfinished

/-- The collection is opened once. -/
theorem start_spec (h : Ready k base rs w) : ∃ v, w.start = (.ok (), v) ∧ v.started = true ∧
    ∃ l : Layout, l.breaks = false ∧ Underway k base l (opening ++ rs.flatMap recordMarks) v := by
  cases h with
  | @fresh l _ hl hstarted h =>
    obtain ⟨v, hput, _, hv⟩ := put_spec h opening
    refine ⟨{ v with started := true }, ?_, rfl, l, hl, ?_⟩
    · rw [start, hstarted, hput]
      rfl
    · exact ⟨hv.unfinished, hv.sound, hv.taken_eq, hv.layout_eq⟩
  | @opened l _ _ hl hstarted h =>
    refine ⟨w, ?_, hstarted, l, hl, h⟩
    rw [start, if_pos hstarted]

theorem write_spec (h : Ready k base rs w) (r : Record) :
    ∃ v, w.write r = ⟨.ok (), v, []⟩ ∧ Ready k base (rs ++ [r]) v := by
  obtain ⟨u, hstart, hustarted, l, hl, hu⟩ := start_spec h
  obtain ⟨v, hput, hvstarted, hv⟩ := put_spec hu (recordMarks r)
  refine ⟨{ v with recordsWritten := v.recordsWritten + 1 }, ?_, .opened hl (hvstarted.trans hustarted) ?_⟩
  · rw [write, h.unfinished, hstart]
    dsimp only
    rw [hput]
    rfl
  · rw [List.append_assoc, ← List.flatMap_singleton recordMarks r, ← List.flatMap_append] at hv
    exact ⟨hv.unfinished, hv.sound, hv.taken_eq, hv.layout_eq⟩

theorem withIndent_spec (h : Ready k base rs w) (spaces : Nat) :
    Ready k base rs (w.withIndent spaces) := by
  cases h with
  | fresh hl hstarted h =>
    rw [withIndent, if_neg (by simp [hstarted])]
    exact .fresh (l := .indented spaces) rfl hstarted ⟨h.unfinished, h.sound, h.taken_eq, rfl⟩
  | opened hl hstarted h =>
    rw [withIndent, if_pos hstarted]
    exact .opened hl hstarted h

theorem call_spec (h : Ready k base rs w) (c : Call) :
    ∃ v, w.call c = (.ok (), v) ∧ Ready k base (rs ++ c.record?.toList) v := by
  cases c with
  | write r =>
    obtain ⟨v, hwrite, hv⟩ := write_spec h r
    refine ⟨v, ?_, hv⟩
    rw [call, hwrite]
  | flush =>
    rw [Call.record?, Option.toList_none, List.append_nil]
    cases h with
    | fresh hl hstarted h =>
      obtain ⟨sink, hflush, hsink, htaken⟩ := flush_spec h.sound
      refine ⟨{ w with sink }, ?_, .fresh hl hstarted (h.withSink hsink htaken)⟩
      rw [call, hflush]
    | opened hl hstarted h =>
      obtain ⟨sink, hflush, hsink, htaken⟩ := flush_spec h.sound
      refine ⟨{ w with sink }, ?_, .opened hl hstarted (h.withSink hsink htaken)⟩
      rw [call, hflush]
  | indent spaces =>
    rw [Call.record?, Option.toList_none, List.append_nil]
    exact ⟨_, rfl, withIndent_spec h spaces⟩

theorem callAll_spec (h : Ready k base rs w) (cs : List Call) :
    ∃ v, w.callAll cs = (.ok (), v) ∧ Ready k base (rs ++ cs.filterMap Call.record?) v := by
  induction cs generalizing w rs with
  | nil => exact ⟨w, rfl, by simpa using h⟩
  | cons c cs ih =>
    obtain ⟨u, hcall, hu⟩ := call_spec h c
    obtain ⟨v, hall, hv⟩ := ih hu
    refine ⟨v, ?_, ?_⟩
    · rw [callAll, hcall]
      exact hall
    · rw [List.append_assoc] at hv
      rw [List.filterMap_cons]
      cases hrecord : c.record? with
      | none => simpa [hrecord] using hv
      | some r => simpa [hrecord] using hv

/-! ## Closing -/

/-- The collection is closed behind the records. -/
theorem finish_spec (h : Ready k base rs w) : ∃ v, w.finish = ⟨.ok (), v, []⟩ ∧ v.finished = true ∧
    ∃ l : Layout, l.breaks = false ∧ k.taken v.sink = base ++ l.bytes (document rs) := by
  obtain ⟨u, hstart, _, l, hl, hu⟩ := start_spec h
  obtain ⟨v, hput, _, hv⟩ := put_spec hu [.stop "collection"]
  obtain ⟨sink, hflush, _, htaken⟩ := flush_spec (w := { v with finished := true }) hv.sound
  refine ⟨{ v with finished := true, sink }, ?_, rfl, l, hl, htaken.trans hv.taken_eq⟩
  rw [finish, h.unfinished, hstart]
  dsimp only
  rw [hput]
  exact hflush

/-- Whichever way a writer is closed, the sink holds the same document. -/
theorem closeBy_spec (h : Ready k base rs w) (closing : Closing) : ∃ last,
    w.closeBy closing = (.ok (), last) ∧ ∃ l : Layout, l.breaks = false ∧
      k.taken last = base ++ l.bytes (document rs) := by
  obtain ⟨v, hfinish, hfinished, hv⟩ := finish_spec h
  refine ⟨v.sink, ?_, hv⟩
  cases closing with
  | finish => rw [closeBy, hfinish, close, if_pos hfinished]
  | release => rw [closeBy, release, hfinish]
  | drop => rw [closeBy, close, h.unfinished, hfinish]; rfl

/-- **A session leaves one document of the records that were written.** -/
theorem session_spec {sink : σ} (hsink : k.sound sink) (calls : List Call) (closing : Closing) :
    ∃ last, (ofSink sink).session calls closing = (.ok (), last) ∧ ∃ l : Layout, l.breaks = false ∧
      k.taken last = k.taken sink ++ l.bytes (document (calls.filterMap Call.record?)) := by
  obtain ⟨v, hall, hv⟩ := callAll_spec (ready_ofSink hsink) calls
  rw [List.nil_append] at hv
  rw [session, hall]
  exact closeBy_spec hv closing

end

end Writer

end Marc21.Slim
