import Marc21.Proofs.Iso2709.Position

/-!
How the bytes arrive. A stream may give few bytes at a time, be interrupted in between, or be fetched in blocks.
A reader of it gives the same records and the same errors, at the same offsets, as one of a stream that answers
every call at once and in full (`transcript_delivering`).
-/

namespace Marc21

namespace Source

/-- A stream that does not fail and gives its bytes by a schedule, `block` of them fetched at a time. -/
def delivering (bs : Bytes) (schedule : Schedule) (block : Nat) : Source :=
  { ofBytes bs with schedule, block }

/-- A schedule may make a delivery as small as it likes: any number of bytes from one up to what is asked. -/
theorem fetch_of_most {s : Source} {n k : Nat} (hs : s.Steady) (hquiet : s.interruptionsLeft = 0)
    (hmost : s.schedule.most (s.deliveries + 1) = some k) (hk : k < n) :
    (s.fetch n).1 = .bytes ((s.content.toList.drop s.position).take (k + 1)) := by
  have hstill : ¬ s.interrupted < s.schedule.interruptions s.deliveries := by
    rw [interruptionsLeft] at hquiet
    omega
  unfold Steady at hs
  rw [fetch, if_neg hstill]
  simp only [hs, Option.any_none, Bool.false_eq_true, if_false, allowance, hmost, Arrival.bytes.injEq]
  rw [Nat.min_eq_right hk, Array.toList_extract, List.extract_eq_take_drop, Nat.add_sub_cancel_left]

end Source

namespace Iso2709.Reader

/-- What is asked of a reader. To rewind is to seek offset 0. -/
inductive Request where
  | read
  | seek (offset : Nat)

/-- To seek gives no record. -/
def answer (r : Reader) : Request → Outcome Reader (Option Record)
  | .read => r.read
  | .seek offset =>
    let o := r.seek offset
    ⟨o.result.map fun _ => none, o.state, o.notices⟩

/-- The offset before each request, and what comes of it, errors included. -/
def transcript (r : Reader) : List Request → List (Nat × Except MarcError (Option Record))
  | [] => []
  | request :: requests =>
    (r.tell, (r.answer request).result) :: (r.answer request).state.transcript requests

/-- Two readers that cannot be told apart, of two streams of the same bytes. -/
structure Twins (content : Bytes) (r s : Reader) : Prop extends Alike r s where
  left : OnStream content r
  right : OnStream content s

namespace Twins

variable {content : Bytes} {r s : Reader}

/-- An offset leads to the same point of both streams, wherever the readers stood before. -/
theorem seek (h : Twins content r s) (offset : Nat) :
    (r.seek offset).result = (s.seek offset).result ∧
      Twins content (r.seek offset).state (s.seek offset).state := by
  obtain ⟨hresult, hr, hposition, hempty⟩ := h.left.seek offset
  obtain ⟨hresult', hs, hposition', hempty'⟩ := h.right.seek offset
  have hup : (r.seek offset).state.source.upcoming = (s.seek offset).state.source.upcoming := by
    rw [hr.upcoming_eq, hs.upcoming_eq, hposition, hposition']
  exact ⟨hresult.trans hresult'.symm,
    ⟨hr.steady, hs.steady, hup, hposition.trans hposition'.symm, hempty.trans hempty'.symm⟩,
    hr.toOnStream, hs.toOnStream⟩

theorem answer (h : Twins content r s) (request : Request) :
    (r.answer request).result = (s.answer request).result ∧
      Twins content (r.answer request).state (s.answer request).state := by
  cases request with
  | read => exact ⟨h.toAlike.read.1, h.toAlike.read.2, h.left.read, h.right.read⟩
  | seek offset =>
    obtain ⟨hresult, hafter⟩ := h.seek offset
    exact ⟨congrArg (Except.map fun _ => none) hresult, hafter⟩

theorem transcript (h : Twins content r s) (requests : List Request) :
    r.transcript requests = s.transcript requests := by
  induction requests generalizing r s with
  | nil => rfl
  | cons request requests ih =>
    obtain ⟨hresult, hafter⟩ := h.answer request
    rw [Reader.transcript, Reader.transcript, h.tell_eq, hresult, ih hafter]

end Twins

theorem twins_delivering (bs : Bytes) (schedule : Schedule) (block : Nat) :
    Twins bs (ofSource (.delivering bs schedule block)) (ofSource (.ofBytes bs)) :=
  ⟨⟨rfl, rfl, rfl, rfl, rfl⟩, ⟨rfl, rfl, rfl⟩, ⟨rfl, rfl, rfl⟩⟩

/-- **Delivery.** However a stream gives its bytes, each call comes to what it comes to on a stream that gives
as much as is asked at once, down to the texts of the errors, and the reader stands at the same offsets in
between. That goes for a truncated end as well, and for readers that went back or ahead. -/
theorem transcript_delivering (bs : Bytes) (schedule : Schedule) (block : Nat)
    (requests : List Request) :
    (ofSource (.delivering bs schedule block)).transcript requests =
      (ofSource (.ofBytes bs)).transcript requests :=
  (twins_delivering bs schedule block).transcript requests

end Iso2709.Reader

end Marc21
