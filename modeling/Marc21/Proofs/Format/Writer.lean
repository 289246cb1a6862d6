import Marc21.Format.Writer
import Marc21.Proofs.Stream.Sink

/-!
What a writer of either format does to its sink is to write and to flush. So what these keep is kept by every
call, whether it succeeds or fails (`Lasting`).
-/

namespace Marc21

namespace Lasting

variable {σ : Type} [ByteSink σ] {p : σ → Prop}

/-! ## Binary writers -/

section

variable {w : Iso2709.Writer σ}

theorem binaryWrite (h : Lasting p) (hw : p w.sink) (r : Record) : p (w.write r).state.sink := by
  unfold Iso2709.Writer.write
  split
  · exact hw
  · split
    · exact hw
    · next chunks _ =>
      have hall := h.writeAll chunks hw
      split
      all_goals
        next heq =>
          rw [heq] at hall
          exact hall

theorem binaryFinish (h : Lasting p) (hw : p w.sink) : p w.finish.state.sink := by
  have hflush : p w.flush.state.sink := by
    have hs := h.flush hw
    unfold Iso2709.Writer.flush
    split
    all_goals
      next heq =>
        rw [heq] at hs
        exact hs
  unfold Iso2709.Writer.finish
  split
  · next heq =>
    rw [heq] at hflush
    exact hflush
  · exact hflush

end

/-! ## Writers of documents -/

section

variable {w : Slim.Writer σ}

theorem put (h : Lasting p) (ms : List Xml.Mark) (hw : p w.sink) : p (w.put ms).2.sink := by
  induction ms generalizing w with
  | nil => exact hw
  | cons m ms ih =>
    have hall := h.writeAll (w.layout.write m).1 hw
    rw [Slim.Writer.put]
    dsimp only
    split
    · next heq =>
      rw [heq] at hall
      exact ih hall
    · next heq =>
      rw [heq] at hall
      exact hall

theorem start (h : Lasting p) (hw : p w.sink) : p w.start.2.sink := by
  have hput := h.put Slim.opening hw
  unfold Slim.Writer.start
  split
  · exact hw
  · split
    · next heq =>
      rw [heq] at hput
      exact hput
    · exact hput

theorem documentWrite (h : Lasting p) (hw : p w.sink) (r : Record) : p (w.write r).state.sink := by
  have hstart := h.start hw
  unfold Slim.Writer.write
  split
  · exact hw
  · split
    · next heq =>
      rw [heq] at hstart
      exact hstart
    · next opened heq =>
      rw [heq] at hstart
      have hput := h.put (Slim.recordMarks r) hstart
      split
      all_goals
        next heq =>
          rw [heq] at hput
          exact hput

theorem documentFlush (h : Lasting p) (hw : p w.sink) : p w.flush.state.sink := by
  have hs := h.flush hw
  unfold Slim.Writer.flush
  split
  all_goals
    next heq =>
      rw [heq] at hs
      exact hs

theorem documentFinish (h : Lasting p) (hw : p w.sink) : p w.finish.state.sink := by
  have hstart := h.start hw
  unfold Slim.Writer.finish
  split
  · exact hw
  · split
    · next heq =>
      rw [heq] at hstart
      exact hstart
    · next opened heq =>
      rw [heq] at hstart
      have hput := h.put [.stop "collection"] hstart
      split
      · next heq =>
        rw [heq] at hput
        exact hput
      · next closed heq =>
        rw [heq] at hput
        exact h.documentFlush (w := { closed with finished := true }) hput

theorem documentClose (h : Lasting p) (hw : p w.sink) : p w.close.1 := by
  have hfinish := h.documentFinish hw
  unfold Slim.Writer.close
  split
  · exact hw
  · split
    all_goals
      next heq =>
        rw [heq] at hfinish
        exact hfinish

end

/-! ## Writers of either format -/

section

variable {w : RecordWriter σ}

theorem recordWrite (h : Lasting p) (hw : p w.sink) (r : Record) : p (w.write r).state.sink := by
  cases w with
  | binary w => exact h.binaryWrite hw r
  | xml w => exact h.documentWrite hw r

theorem recordFinish (h : Lasting p) (hw : p w.sink) : p w.finish.state.sink := by
  cases w with
  | binary w => exact h.binaryFinish hw
  | xml w => exact h.documentFinish hw

theorem recordClose (h : Lasting p) (hw : p w.sink) : p w.close.1 := by
  cases w with
  | binary w => exact hw
  | xml w => exact h.documentClose hw

end

end Lasting

end Marc21
