import Mathlib.Data.List.ReduceOption
import Mathlib.Data.List.SplitBy
import Mathlib.Logic.Relation
import Marc21.Proofs.Xml.Merging

/-!
What comes of the tokens of a document. Each one is converted to an event, or to nothing if it is passed over
(`Scanner.converted`), and a stream gives these events with each longest run of character data in one piece
(`map_events_of_converted`). So it makes no difference into how many pieces character data is cut, or what is passed
over among them (`joinText_of_recut`).
-/

namespace Marc21.Xml

/-! ## Runs of character data -/

instance : DecidablePred Event.IsText
  | .text _ => .isTrue trivial
  | .opening _ _ | .closing _ | .endOfDocument => .isFalse id

def Event.content : Event → String
  | .text content => content
  | _ => ""

/-- Character data becomes one piece, in order. All else stays. -/
def joinRun (run : List Event) : List Event :=
  if ∀ event ∈ run, event.IsText then [.text (String.join (run.map Event.content))] else run

/-- Events with each longest run of character data in one piece. -/
def joinText (es : List Event) : List Event := (es.splitBy fun a b => a.IsText ∧ b.IsText).flatMap joinRun

section

variable {event : Event}

/-- A run ends where something else follows. -/
theorem joinText_append (h : ¬event.IsText) (es rest : List Event) :
    joinText (es ++ event :: rest) = joinText es ++ joinText (event :: rest) := by
  rw [joinText, List.splitBy_append_cons rest (by simp [h]), List.flatMap_append, joinText, joinText]

theorem joinText_cons (h : ¬event.IsText) (rest : List Event) :
    joinText (event :: rest) = event :: joinText rest := by
  have hevent : joinRun [event] = [event] := if_neg (by simpa using h)
  cases rest with
  | nil => exact congrArg (· ++ []) hevent
  | cons next rest =>
    rw [joinText, ← List.singleton_append, List.splitBy_append_cons rest (by simp [h]), List.flatMap_append]
    exact congrArg (· ++ joinText (next :: rest)) ((List.flatMap_singleton _ _).trans hevent)

theorem joinText_texts {parts : List String} (h : parts ≠ []) :
    joinText (parts.map .text) = [.text (String.join parts)] := by
  have htext (content : String) : (Event.text content).IsText := trivial
  have hchain : (parts.map Event.text).IsChain fun a b => decide (a.IsText ∧ b.IsText) :=
    (List.pairwise_map.2 (List.pairwise_of_forall fun a b => by simp [htext])).isChain
  have hcontent : (parts.map Event.text).map Event.content = parts := by
    rw [List.map_map]
    exact List.map_id parts
  rw [joinText, List.splitBy_of_isChain (by simpa using h) hchain, List.flatMap_singleton, joinRun,
    if_pos (by simp [htext]), hcontent]

end

/-- Putting character data together on the way is the same as joining its runs. -/
theorem merge_eq_joinText {text : Option (List String)} (htext : text ≠ some []) (es : List Event) :
    merge text (es ++ [.endOfDocument]) =
      joinText ((text.getD []).reverse.map .text ++ es) ++ [.endOfDocument] := by
  induction es generalizing text with
  | nil =>
    cases text with
    | none => rfl
    | some parts =>
      have hne : parts.reverse ≠ [] := by simpa using htext
      rw [List.append_nil, Option.getD_some, joinText_texts hne]
      rfl
  | cons event es ih =>
    cases event with
    | text content =>
      rw [List.cons_append, merge, ih (by simp)]
      simp
    | opening | closing | endOfDocument =>
      cases text with
      | none =>
        have hrest := ih (show (none : Option (List String)) ≠ some [] by simp)
        rw [List.cons_append, merge_none_cons (by simp), hrest]
        exact congrArg (· ++ [Event.endOfDocument]) (joinText_cons id es).symm
      | some parts =>
        have hne : parts.reverse ≠ [] := by simpa using htext
        have hrest := ih (show (none : Option (List String)) ≠ some [] by simp)
        rw [List.cons_append, merge_some_cons (by simp), hrest, Option.getD_some, joinText_append id,
          joinText_texts hne, joinText_cons id]
        rfl

/-! ## Tokens -/

namespace Scanner

/-- What the tokens of a scanner are converted to, up to the end of the document, unless there is a fault on the
way. Those that are passed over are converted to nothing. -/
def converted (s : Scanner) : Option (List (Option Event)) :=
  match _h : s.next with
  | (.error _, _) => none
  | (.ok token, t) =>
    match _he : token.event? with
    | .error _ => none
    | .ok none => (converted t).map (none :: ·)
    | .ok (some event) => if _hend : event = .endOfDocument then some [] else (converted t).map (some event :: ·)
termination_by s.weight
decreasing_by
  · exact next_weight _h (by rintro rfl; cases _he)
  · exact next_weight _h (by rintro rfl; cases _he; exact _hend rfl)

theorem events_of_converted {s : Scanner} {found : List (Option Event)} (h : s.converted = some found) :
    s.events = found.reduceOption ++ [.endOfDocument] := by
  fun_induction converted s generalizing found with
  | case1 => cases h
  | case2 => cases h
  | case3 s token t hnext htoken ih =>
    obtain ⟨rest, hrest, rfl⟩ := Option.map_eq_some_iff.1 h
    rw [events_eq, hnext, eventsFrom, htoken, List.reduceOption_cons_of_none]
    exact ih hrest
  | case4 s token t hnext htoken =>
    cases h
    rw [events_eq, hnext, eventsFrom, htoken]
    rfl
  | case5 s token t hnext event htoken hend ih =>
    obtain ⟨rest, hrest, rfl⟩ := Option.map_eq_some_iff.1 h
    rw [events_eq, hnext, eventsFrom, htoken]
    dsimp only
    rw [if_neg hend, ih hrest]
    rfl

end Scanner

/-- **Nothing is lost on the way from tokens to events.** A stream gives what the tokens are converted to, in order,
with each longest run of character data in one piece. -/
theorem map_events_of_converted {s : Scanner} {found : List (Option Event)} (h : s.converted = some found) :
    (EventStream.mk s none).events.map Prod.snd = joinText found.reduceOption ++ [.endOfDocument] := by
  rw [EventStream.map_events, EventStream.merged, Scanner.events_of_converted h]
  exact merge_eq_joinText (by simp) found.reduceOption

/-! ## Pieces -/

/-- One piece of character data is cut in two, or something that is passed over is put in. -/
inductive Recut : List (Option Event) → List (Option Event) → Prop
  | cut (front back : List (Option Event)) (a b : String) :
      Recut (front ++ some (.text (a ++ b)) :: back) (front ++ some (.text a) :: some (.text b) :: back)
  | passOver (front back : List (Option Event)) : Recut (front ++ back) (front ++ none :: back)

/-- More may come in front and behind. -/
theorem Recut.within {found others : List (Option Event)} (h : Recut found others) (front back : List (Option Event)) :
    Recut (front ++ found ++ back) (front ++ others ++ back) := by
  cases h with
  | cut before after a b => simpa using Recut.cut (front ++ before) (after ++ back) a b
  | passOver before after => simpa using Recut.passOver (front ++ before) (after ++ back)

/-- Of the pieces so far only what they come to together counts. -/
theorem merge_congr {parts others : List String} (h : String.join parts.reverse = String.join others.reverse)
    (es : List Event) : merge (some parts) es = merge (some others) es := by
  induction es generalizing parts others with
  | nil => rfl
  | cons event es ih =>
    cases event with
    | text content => exact ih (by simp [h])
    | opening | closing | endOfDocument => simp only [merge, h]

theorem merge_append_congr {es fs : List Event} (h : ∀ text, merge text es = merge text fs) (front : List Event)
    (text : Option (List String)) : merge text (front ++ es) = merge text (front ++ fs) := by
  induction front generalizing text with
  | nil => exact h text
  | cons event front ih => cases event <;> cases text <;> simp [merge, ih]

theorem merge_of_recut {found others : List (Option Event)} (h : Recut found others)
    (text : Option (List String)) :
    merge text (found.reduceOption ++ [.endOfDocument]) = merge text (others.reduceOption ++ [.endOfDocument]) := by
  cases h with
  | cut front back a b =>
    rw [List.reduceOption_append, List.reduceOption_append, List.append_assoc, List.append_assoc]
    refine merge_append_congr (fun text => ?_) _ text
    have hparts (parts : List String) :
        String.join ((a ++ b) :: parts).reverse = String.join (b :: a :: parts).reverse := by
      simp
    exact merge_congr (hparts _) (back.reduceOption ++ [.endOfDocument])
  | passOver front back => rw [List.reduceOption_append, List.reduceOption_append, List.reduceOption_cons_of_none]

/-- Neither the cuts within character data nor what is passed over count. -/
theorem joinText_of_recut {found others : List (Option Event)} (h : Relation.EqvGen Recut found others) :
    joinText found.reduceOption = joinText others.reduceOption := by
  induction h with
  | rel found others hrecut =>
    have hmerge := merge_of_recut hrecut none
    rw [merge_eq_joinText (by simp), merge_eq_joinText (by simp)] at hmerge
    exact List.append_cancel_right hmerge
  | refl found => rfl
  | symm found others _ ih => exact ih.symm
  | trans found middle others _ _ ih ih' => exact ih.trans ih'

end Marc21.Xml
