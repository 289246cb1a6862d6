import Marc21.Proofs.Xml.Document
import Marc21.Proofs.Xml.Merging

/-!
Documents that break off. A tag without its bracket is still taken for one, but a start tag then closes nothing,
and an end tag closes its element only if nothing but the bracket is missing (`Mark.Reads.cut`). So the end tag
behind all others is not read of a document that breaks off before it (`Nested.fallsShort`, `document_cut`).
-/

namespace Marc21.Xml

open Attribute (prefix_append_cases)

namespace Scanner

variable {s t : Scanner} {names names' : List Bytes} {event : Event}

/-- Behind a bracket, with these bytes ahead and within these elements. -/
structure Behind (s : Scanner) (rest : Bytes) (names : List Bytes) : Prop where
  rest_eq : s.rest = rest
  names_eq : s.names = names
  whole : s.broken = none

/-! ## The end -/

/-- Nothing is ahead. -/
theorem events_of_nil (hphase : s.phase = .text ∨ s.phase = .tag) (hrest : s.rest = [])
    (hwhole : s.broken = none) : s.events = [.endOfDocument] := by
  rw [events_eq_readAny, readAny]
  rcases hphase with hphase | hphase
  · simp only [hphase, readText, hrest, readUntil, cut, List.takeWhile_nil, List.dropWhile_nil, if_true,
      atEnd, hwhole]
    rfl
  · simp only [hphase, readTag, hrest, atEnd, hwhole]
    rfl

theorem At.events_nil (h : s.At [] names) : s.events = [.endOfDocument] :=
  events_of_nil (.inl h.phase_eq) h.rest_eq h.whole

theorem cut_of_not_mem {b : UInt8} {bs : Bytes} (h : b ∉ bs) : cut b bs = (bs, none) := by
  have hp : ∀ c ∈ bs, (c != b) = true := fun c hc => bne_iff_ne.2 fun heq => h (heq ▸ hc)
  rw [cut, List.takeWhile_eq_self_iff.2 hp, List.dropWhile_eq_nil_iff.2 hp]

/-! ## Text -/

/-- No tag is read of text that breaks off. -/
theorem At.events_cut_text {p : Bytes} (h : s.At p names) (hp : 0x3C ∉ p) : tags s.events = [] := by
  by_cases hnil : p = []
  · subst hnil
    rw [h.events_nil]
    rfl
  · have hread : s.readAny = (.ok (.text p), { s.advance p [] with phase := .tag }) := by
      have huntil : s.readUntil 0x3C = (.ok (some p), s.advance p []) := by
        rw [readUntil, h.rest_eq, cut_of_not_mem hp]
        simp only [atEnd, h.whole, if_neg hnil]
      rw [readAny, h.phase_eq]
      unfold readText
      dsimp only
      split
      · next hrest =>
        rw [h.rest_eq] at hrest
        exact absurd (hrest ▸ List.mem_cons_self) hp
      · rw [huntil]
    have hend : Scanner.events { s.advance p [] with phase := .tag } = [.endOfDocument] :=
      events_of_nil (.inr rfl) rfl h.whole
    rw [events_eq_readAny, hread, eventsFrom, Token.event?]
    cases Reference.read p with
    | error fault => rfl
    | ok text =>
      change tags (.text text :: Scanner.events _) = []
      rw [tags_text, hend]
      rfl

/-- What text stands for. -/
def textEvents (text : String) : List Event := if text = "" then [] else [.text text]

theorem tags_textEvents (text : String) : tags (textEvents text) = [] := by
  unfold textEvents
  split <;> rfl

/-- Text is followed by what stands behind the next bracket. -/
theorem At.events_text {text : String} {body : Bytes}
    (h : s.At (Utf8.encode (Reference.escape text) ++ 0x3C :: body) names) :
    ∃ u : Scanner, u.Behind body names ∧ s.events = textEvents text ++ eventsFrom u.readTag := by
  by_cases hempty : text = ""
  · subst hempty
    refine ⟨s.advance [0x3C] body, ⟨rfl, h.names_eq, h.whole⟩, ?_⟩
    have hrest : s.rest = 0x3C :: body := h.rest_eq
    rw [events_eq_readAny, readAny, h.phase_eq]
    simp only [readText, hrest]
    rfl
  · have hbracket : 0x3C ∉ Utf8.encode (Reference.escape text) :=
      Reference.not_mem_encode_escape text (by decide) (by decide) (by decide)
    let u : Scanner :=
      { s.advance (0x3C :: Utf8.encode (Reference.escape text)) body with phase := .tag }
    have hread : s.readAny = (.ok (.text (Utf8.encode (Reference.escape text))), u) := by
      rw [readAny, h.phase_eq]
      exact readText_of_text h.rest_eq hbracket (Reference.encode_escape_ne_nil hempty)
    refine ⟨u, ⟨rfl, h.names_eq, h.whole⟩, ?_⟩
    have htoken : (Token.text (Utf8.encode (Reference.escape text))).event? =
        .ok (some (.text text)) := by
      rw [Token.event?, Reference.read_escape]
      rfl
    rw [events_eq_readAny, hread, eventsFrom, htoken, textEvents, if_neg hempty]
    exact congrArg (Event.text text :: ·) (events_eq_readAny u)

/-! ## Tags -/

/-- A whole tag. -/
theorem Behind.events_tag {body rest : Bytes} (h : s.Behind body names)
    (hbody : TagReads body names event rest names') (hevent : event.IsTag) :
    ∃ t : Scanner, t.At rest names' ∧ eventsFrom s.readTag = event :: t.events := by
  obtain ⟨token, t, hread, htoken, ht⟩ := hbody s h.rest_eq h.names_eq h.whole
  exact ⟨t, ht, by rw [hread, eventsFrom_tag htoken hevent]⟩

theorem Behind.events_nil (h : s.Behind [] names) : eventsFrom s.readTag = [.endOfDocument] := by
  simp only [readTag, h.rest_eq, atEnd, h.whole]
  rfl

theorem findEnd_of_not_mem {α : Type} {step : α → UInt8 → α} {ends : α → Bool} {state : α}
    {seen bs : Bytes} (h : 0x3E ∉ bs) : findEnd step ends state seen bs = none := by
  induction bs generalizing state seen with
  | nil => rfl
  | cons b bs ih =>
    rw [List.mem_cons, not_or] at h
    rw [findEnd, if_neg fun heq => h.1 heq.1.symm, ih h.2]

section

variable {name : String} {as : Attributes} {q : Bytes}

/-- The name in a start tag that breaks off. Behind a slash it is there as a whole. -/
theorem takeWhile_cut (hname : PlainName name)
    (hq : q <+: Utf8.encode (name ++ Mark.attributeText as)) :
    q.takeWhile (!isSpace ·) <+: Utf8.encode name ∧ (q.getLast? = some 0x2F →
      q.takeWhile (!isSpace ·) = Utf8.encode name ∧ (Utf8.encode name).length < q.length) := by
  rw [Utf8.encode_append, Attribute.encode_attributeText] at hq
  rcases prefix_append_cases hq with hq | ⟨later, rfl, hlater⟩
  · refine ⟨(List.takeWhile_prefix _).trans hq, fun hlast => ?_⟩
    exact absurd rfl (ne_of_isPlain (hname.2 _ (hq.subset (List.mem_of_getLast? hlast))) rfl)
  · have hwhole : (Utf8.encode name ++ later).takeWhile (!isSpace ·) = Utf8.encode name :=
      takeWhile_front hname hlater
    refine ⟨hwhole.symm ▸ List.prefix_rfl, fun hlast => ⟨hwhole, ?_⟩⟩
    cases later with
    | nil =>
      rw [List.append_nil] at hlast
      exact absurd rfl (ne_of_isPlain (hname.2 _ (List.mem_of_getLast? hlast)) rfl)
    | cons b later => simp

/-- **A start tag that breaks off** closes nothing. What it opens has a name that its own starts with. -/
theorem Behind.events_cut_start (h : s.Behind q names) (hname : PlainName name)
    (hplain : ∀ a ∈ as, PlainName a.1) (hnodup : (as.map Prod.fst).Nodup)
    (hq : q <+: Utf8.encode (name ++ Mark.attributeText as)) :
    eventsFrom s.readTag = [] ∨ eventsFrom s.readTag = [.endOfDocument] ∨ ∃ known as',
      known <+: Utf8.encode name ∧ eventsFrom s.readTag =
        [.opening (Utf8.decodeLossy (localName known)) as', .endOfDocument] := by
  by_cases hnil : q = []
  · subst hnil
    exact .inr (.inl h.events_nil)
  have hbracket : 0x3E ∉ q := fun hmem => bracket_not_mem_tag hname hplain (hq.subset hmem)
  obtain ⟨b, more, hb⟩ := List.exists_cons_of_ne_nil hnil
  have hfirst : isPlain b = true := by
    obtain ⟨first, rest, hfirst⟩ := List.exists_cons_of_ne_nil hname.1
    rw [hb, Utf8.encode_append, hfirst, List.cons_append] at hq
    rw [(List.cons_prefix_cons.1 hq).1]
    exact hname.2 first (hfirst ▸ List.mem_cons_self)
  have hread : s.readTag =
      let t := ({ s with phase := .text }.advance q []).startToken q
      (.ok t.1, t.2) := by
    have h1 : b ≠ 0x21 := ne_of_isPlain hfirst rfl
    have h2 : b ≠ 0x2F := ne_of_isPlain hfirst rfl
    have h3 : b ≠ 0x3F := ne_of_isPlain hfirst rfl
    have hnone : findEnd quoteStep Option.isNone none [] (b :: more) = none :=
      findEnd_of_not_mem (hb ▸ hbracket)
    simp only [readTag, h.rest_eq, hb, if_neg h1, if_neg h2, if_neg h3, hnone, atEnd, advance,
      h.whole]
  obtain ⟨hwithin, hslash⟩ := takeWhile_cut hname hq
  rw [hread]
  by_cases hlast : q.getLast? = some 0x2F
  · left
    obtain ⟨hwhole, hlength⟩ := hslash hlast
    obtain ⟨fault, hfault⟩ := Attribute.ofTag_slash hname hplain hnodup hq hlast
    have hmin : min (Utf8.encode name).length (q.length - 1) = (Utf8.encode name).length := by omega
    simp only [startToken, hwhole, if_pos hlast, hmin, eventsFrom, Token.event?, hfault]
    rfl
  · have hknown : q.take (q.takeWhile (!isSpace ·)).length = q.takeWhile (!isSpace ·) :=
      (List.prefix_iff_eq_take.1 (List.takeWhile_prefix _)).symm
    simp only [startToken, if_neg hlast, eventsFrom, Token.event?, hknown]
    cases Attribute.ofTag q (q.takeWhile (!isSpace ·)).length with
    | error fault => exact .inl rfl
    | ok as' =>
      refine .inr (.inr ⟨_, as', hwithin, ?_⟩)
      refine congrArg (Event.opening _ as' :: ·) ?_
      exact events_of_nil (.inl rfl) rfl h.whole

/-- **An end tag that breaks off** closes its element only if nothing but the bracket is missing. -/
theorem Behind.events_cut_stop (h : s.Behind q (Utf8.encode name :: names)) (hname : PlainName name)
    (hq : q <+: 0x2F :: Utf8.encode name) :
    eventsFrom s.readTag = [] ∨ eventsFrom s.readTag = [.endOfDocument] ∨
      q = 0x2F :: Utf8.encode name ∧ eventsFrom s.readTag = [.closing name, .endOfDocument] := by
  rcases List.prefix_cons_iff.1 hq with rfl | ⟨found, rfl, hfound⟩
  · exact .inr (.inl h.events_nil)
  have hbracket : 0x3E ∉ 0x2F :: found := by
    rw [List.mem_cons, not_or]
    exact ⟨by decide, fun hmem => not_mem_of_plainName hname rfl (hfound.subset hmem)⟩
  have htrim : trimName found = found := trimName_of_isPlain fun b hb => hname.2 b (hfound.subset hb)
  have hread : s.readTag = ({ s with phase := .text }.advance (0x2F :: found) []).stopToken (0x2F :: found) := by
    simp only [readTag, h.rest_eq, readUntil, cut_of_not_mem hbracket, atEnd, advance, h.whole]
    simp
  rw [hread, stopToken]
  simp only [advance, h.names_eq, List.drop_succ_cons, List.drop_zero, htrim]
  by_cases hfull : found = Utf8.encode name
  · refine .inr (.inr ⟨by rw [hfull], ?_⟩)
    have hcolon : 0x3A ∉ Utf8.encode name := not_mem_of_plainName hname rfl
    have htoken : (Token.stop (Utf8.encode name)).event? = .ok (some (.closing name)) := by
      rw [Token.event?, localName_eq_self hcolon, Utf8.decodeLossy_encode]
      rfl
    rw [if_pos hfull, hfull, eventsFrom_tag htoken trivial]
    exact congrArg (Event.closing name :: ·) (events_of_nil (.inl rfl) rfl h.whole)
  · rw [if_neg hfull]
    exact .inl rfl

end

end Scanner

/-! ## Documents -/

section

variable {s t : Scanner} {m : Mark} {names names' : List Bytes} {event : Event} {q rest : Bytes}

/-- A tag that breaks off closes nothing, unless it is an end tag of which only the bracket is missing. -/
theorem Mark.Reads.cut (hm : m.Reads names event names') (hq : q <+: m.inner) (hs : s.Behind q names) :
    (∀ name, .closing name ∉ Scanner.eventsFrom s.readTag) ∨
      q = m.inner ∧ Scanner.eventsFrom s.readTag = [event, .endOfDocument] := by
  cases hm with
  | start names hname hplain hnodup =>
    left
    rcases hs.events_cut_start hname hplain hnodup hq with hnone | hend | ⟨_, _, _, hopening⟩
    · simp [hnone]
    · simp [hend]
    · simp [hopening]
  | stop names hname =>
    rcases hs.events_cut_stop hname hq with hnone | hend | ⟨hwhole, hclosing⟩
    · exact .inl (by simp [hnone])
    · exact .inl (by simp [hend])
    · exact .inr ⟨hwhole, hclosing⟩

namespace Scanner

/-- A whole tag, with the text before it. -/
theorem At.events_cons {text : String} (hm : m.Reads names event names')
    (hs : s.At (Utf8.encode (Reference.escape text) ++ 0x3C :: (m.inner ++ 0x3E :: rest)) names) :
    ∃ t : Scanner, t.At rest names' ∧ s.events = textEvents text ++ event :: t.events := by
  obtain ⟨u, hu, hevents⟩ := hs.events_text
  obtain ⟨t, ht, htag⟩ := hu.events_tag (hm.tagReads rest) hm.isTag
  exact ⟨t, ht, by rw [hevents, htag]⟩

/-- What goes on with text and a tag may break off in the text, in the tag, or behind it. -/
theorem At.cut {text : String} {p : Bytes} (hm : m.Reads names event names')
    (hp : p <+: Utf8.encode (Reference.escape text) ++ 0x3C :: (m.inner ++ 0x3E :: rest))
    (hs : s.At p names) :
    tags s.events = [] ∨
    (∃ (q : Bytes) (u : Scanner), q <+: m.inner ∧ u.Behind q names ∧
      p = Utf8.encode (Reference.escape text) ++ 0x3C :: q ∧
      s.events = textEvents text ++ eventsFrom u.readTag) ∨
    ∃ (q : Bytes) (t : Scanner), q <+: rest ∧ t.At q names' ∧
      p = Utf8.encode (Reference.escape text) ++ 0x3C :: (m.inner ++ 0x3E :: q) ∧
      s.events = textEvents text ++ event :: t.events := by
  have hbracket : 0x3C ∉ Utf8.encode (Reference.escape text) :=
    Reference.not_mem_encode_escape text (by decide) (by decide) (by decide)
  rcases prefix_append_cases hp with hp | ⟨behind, rfl, hbehind⟩
  · exact .inl (hs.events_cut_text fun hmem => hbracket (hp.subset hmem))
  rcases List.prefix_cons_iff.1 hbehind with rfl | ⟨q, rfl, hq⟩
  · rw [List.append_nil] at hs
    exact .inl (hs.events_cut_text hbracket)
  rcases prefix_append_cases hq with hq | ⟨later, rfl, hlater⟩
  · obtain ⟨u, hu, hevents⟩ := hs.events_text
    exact .inr (.inl ⟨q, u, hq, hu, rfl, hevents⟩)
  rcases List.prefix_cons_iff.1 hlater with rfl | ⟨last, rfl, hlast⟩
  · rw [List.append_nil] at hs ⊢
    obtain ⟨u, hu, hevents⟩ := hs.events_text
    exact .inr (.inl ⟨m.inner, u, List.prefix_rfl, hu, rfl, hevents⟩)
  · obtain ⟨t, ht, hevents⟩ := hs.events_cons hm
    exact .inr (.inr ⟨last, t, hlast, ht, rfl, hevents⟩)

end Scanner

end

/-- Marks behind the start tag of a document, of which only the last one closes the outermost element. -/
inductive Nested (root : String) : List Mark → List Bytes → Prop where
  | last {names : List Bytes} (hroot : PlainName root) :
      Nested root [.stop root] (Utf8.encode root :: names)
  | tag {m : Mark} {ms : List Mark} {names names' : List Bytes} {event : Event}
      (hm : m.Reads names event names') (hne : event ≠ .closing root) (rest : Nested root ms names') :
      Nested root (m :: ms) names
  | text (content : String) {m : Mark} {ms : List Mark} {names names' : List Bytes} {event : Event}
      (hm : m.Reads names event names') (hne : event ≠ .closing root) (rest : Nested root ms names') :
      Nested root (.text content :: m :: ms) names

/-- A scanner of the front of some bytes does not come to the end of an element, or it comes as far as a scanner
of all of them, and then at most the last bracket is missing. -/
def FallsShort (root : String) (names : List Bytes) (bs : Bytes) : Prop :=
  ∀ (p : Bytes) (s t : Scanner), p <+: bs → s.At p names → t.At bs names →
    .closing root ∉ s.events ∨ (p = bs ∨ p ++ [0x3E] = bs) ∧ s.events = t.events

section

variable {root text : String} {m : Mark} {names names' : List Bytes} {event : Event} {rest : Bytes}

theorem closing_not_mem {es : List Event} (text root : String) (h : .closing root ∉ es) :
    .closing root ∉ Scanner.textEvents text ++ es := by
  rw [List.mem_append, not_or]
  exact ⟨closing_not_mem_of_tags (Scanner.tags_textEvents text), h⟩

theorem fallsShort_cons (hm : m.Reads names event names') (hne : event ≠ .closing root)
    (hrest : FallsShort root names' rest) : FallsShort root names
      (Utf8.encode (Reference.escape text) ++ 0x3C :: (m.inner ++ 0x3E :: rest)) := by
  intro p s t hp hs ht
  rcases hs.cut hm hp with hnone | ⟨q, u, hq, hu, _, hevents⟩ | ⟨q, s', hq, hs', hfront, hevents⟩
  · exact .inl (closing_not_mem_of_tags hnone)
  · left
    rw [hevents]
    apply closing_not_mem
    rcases hm.cut hq hu with hnone | ⟨_, hclosing⟩
    · exact hnone root
    · simp [hclosing, Ne.symm hne]
  · obtain ⟨t', ht', hall⟩ := ht.events_cons hm
    rcases hrest q s' t' hq hs' ht' with hnone | ⟨hwhole, hsame⟩
    · left
      rw [hevents]
      apply closing_not_mem
      rw [List.mem_cons, not_or]
      exact ⟨Ne.symm hne, hnone⟩
    · right
      rw [hfront]
      refine ⟨hwhole.imp (fun h => by rw [h]) fun h => by simp [← h], by rw [hevents, hall, hsame]⟩

/-- The last end tag may lack its bracket. -/
theorem fallsShort_last (hm : m.Reads names event names') : FallsShort root names
    (Utf8.encode (Reference.escape text) ++ 0x3C :: (m.inner ++ [0x3E])) := by
  intro p s t hp hs ht
  obtain ⟨t', ht', hall⟩ := ht.events_cons hm
  rw [ht'.events_nil] at hall
  rcases hs.cut hm hp with hnone | ⟨q, u, hq, hu, hfront, hevents⟩ | ⟨q, s', hq, hs', hfront, hevents⟩
  · exact .inl (closing_not_mem_of_tags hnone)
  · rcases hm.cut hq hu with hnone | ⟨rfl, hclosing⟩
    · left
      rw [hevents]
      exact closing_not_mem text root (hnone root)
    · right
      rw [hfront]
      exact ⟨.inr (by simp), by rw [hevents, hall, hclosing]⟩
  · right
    obtain rfl := List.prefix_nil.1 hq
    exact ⟨.inl hfront, by rw [hevents, hall, hs'.events_nil]⟩

/-- **The outermost element is not closed in what breaks off before its end tag.** -/
theorem Nested.fallsShort {ms : List Mark} (h : Nested root ms names) (l : Layout) :
    FallsShort root names (l.bytes ms) := by
  induction h generalizing l with
  | @last names hroot =>
    have hm : (Mark.stop root).Reads (Utf8.encode root :: names) (.closing root) names := .stop names hroot
    obtain ⟨gap, hbytes, _⟩ := hm.bytes_cons l []
    rw [hbytes]
    exact fallsShort_last hm
  | @tag m ms _ _ _ hm hne _ ih =>
    obtain ⟨gap, hbytes, _⟩ := hm.bytes_cons l ms
    rw [hbytes]
    exact fallsShort_cons hm hne (ih _)
  | @text content m ms _ _ _ hm hne _ ih =>
    rw [hm.bytes_text l content ms]
    exact fallsShort_cons hm hne (ih _)

end

/-! ## The start of a document -/

namespace Scanner

variable {s : Scanner} {names : List Bytes} {p q : Bytes}

/-- An instruction that breaks off is passed over, if it is one at all. -/
theorem Behind.events_cut_instruction {content : Bytes} (h : s.Behind q names)
    (hcontent : 0x3E ∉ 0x3F :: content) (hq : q <+: 0x3F :: content) :
    tags (eventsFrom s.readTag) = [] := by
  rcases List.prefix_cons_iff.1 hq with rfl | ⟨found, rfl, hfound⟩
  · rw [h.events_nil]
    rfl
  · have hbracket : 0x3E ∉ 0x3F :: found := fun hmem => hcontent (hq.subset hmem)
    have hread : s.readTag = (instructionToken (0x3F :: found),
        { s with phase := .text }.advance (0x3F :: found) []) := by
      simp only [readTag, h.rest_eq, readUntil, cut_of_not_mem hbracket, atEnd, advance, h.whole]
      simp
    rw [hread]
    unfold instructionToken
    split
    · have hend : Scanner.events ({ s with phase := .text }.advance (0x3F :: found) []) =
          [.endOfDocument] := events_of_nil (.inl rfl) rfl h.whole
      rw [eventsFrom, Token.event?]
      change tags (Scanner.events _) = []
      rw [hend]
      rfl
    · rfl

/-- At the start of a document a scanner is between tags. -/
theorem events_ofBytes (supply : Supply) (hp : ∀ b ∈ p.head?, b = 0x3C) :
    (ofBytes p supply none).events = { ofBytes p supply none with phase := .text }.events := by
  have hmark : (ofBytes p supply none).skipMark = ofBytes p supply none := by
    unfold skipMark
    split
    · next hrest =>
      have hfirst := hp 0xEF (by rw [show p = _ from hrest]; rfl)
      cases hfirst
    · rfl
  rw [events_eq_readAny, events_eq_readAny, readAny, readAny]
  simp only [ofBytes] at hmark ⊢
  rw [hmark]

end Scanner

/-- Nothing is read of the declaration of a document. -/
theorem events_declaration (rest : Bytes) (supply : Supply) : ∃ t : Scanner, t.At rest [] ∧
    (Scanner.ofBytes (0x3C :: (Mark.declaration.inner ++ [0x3E]) ++ rest) supply none).events =
      t.events := by
  have hrest : (Scanner.ofBytes (0x3C :: (Mark.declaration.inner ++ [0x3E]) ++ rest) supply none).rest =
      0x3C :: 0x3F :: (Utf8.encode "xml version=\"1.0\" encoding=\"UTF-8\"?" ++ 0x3E :: rest) := by
    simp [Mark.inner, Scanner.ofBytes]
  obtain ⟨t, hnext, ht⟩ :=
    Scanner.next_instruction rfl hrest rfl rfl (by decide) (by decide) (by decide)
  exact ⟨t, ht, by rw [Scanner.events_eq, hnext]; rfl⟩

/-- A document may break off in its declaration or behind it. -/
theorem declaration_cut {rest p : Bytes} (hp : p <+: 0x3C :: (Mark.declaration.inner ++ [0x3E]) ++ rest)
    (supply : Supply) : tags (Scanner.ofBytes p supply none).events = [] ∨
      ∃ q, q <+: rest ∧ p = 0x3C :: (Mark.declaration.inner ++ [0x3E]) ++ q := by
  rcases prefix_append_cases hp with hp | ⟨q, hp, hq⟩
  · rw [← List.cons_append] at hp
    rcases List.prefix_concat_iff.1 hp with hp | hp
    · exact .inr ⟨[], List.nil_prefix, by rw [hp]; simp⟩
    · left
      rcases List.prefix_cons_iff.1 hp with rfl | ⟨q, rfl, hq⟩
      · rw [Scanner.events_ofBytes supply (by simp), Scanner.events_of_nil (.inl rfl) rfl rfl]
        rfl
      · have hat : Scanner.At { Scanner.ofBytes (0x3C :: q) supply none with phase := .text }
            (Utf8.encode (Reference.escape "") ++ 0x3C :: q) [] := ⟨rfl, rfl, rfl, rfl⟩
        obtain ⟨u, hu, hevents⟩ := hat.events_text
        rw [Scanner.events_ofBytes supply (by simp), hevents, tags_append, Scanner.tags_textEvents,
          List.nil_append]
        exact hu.events_cut_instruction (by decide) hq
  · exact .inr ⟨q, hq, hp.symm⟩

/-- The first tag, if there is one, is a start tag of which the name is the front of this one. -/
def StartsWithin (root : String) (es : List Event) : Prop :=
  ∀ name as, (tags es).head? = some (.opening name as) →
    ∃ known, known <+: Utf8.encode root ∧ name = Utf8.decodeLossy (Scanner.localName known)

section

variable {root : String} {as : Attributes} {ms : List Mark} {l : Layout} {p : Bytes}

/-- Of a start tag that breaks off the name may do so as well. -/
theorem Scanner.At.startsWithin {s : Scanner} (hs : s.At p []) (hroot : PlainName root)
    (hplain : ∀ a ∈ as, PlainName a.1) (hnodup : (as.map Prod.fst).Nodup)
    (hp : p <+: l.bytes (.start root as :: ms)) : StartsWithin root s.events := by
  have hm : (Mark.start root as).Reads [] (.opening root as) [Utf8.encode root] :=
    .start [] hroot hplain hnodup
  obtain ⟨gap, hbytes, _⟩ := hm.bytes_cons l ms
  rw [hbytes] at hp
  rcases hs.cut hm hp with hnone | ⟨q, u, hq, hu, _, hevents⟩ | ⟨q, t, _, _, _, hevents⟩
  · simp [StartsWithin, hnone]
  · intro name as' hhead
    rw [hevents, tags_append, Scanner.tags_textEvents, List.nil_append] at hhead
    rcases hu.events_cut_start hroot hplain hnodup hq with h | h | ⟨known, _, hknown, h⟩
    · rw [h] at hhead
      cases hhead
    · rw [h] at hhead
      cases hhead
    · rw [h] at hhead
      cases hhead
      exact ⟨known, hknown, rfl⟩
  · intro name as' hhead
    rw [hevents, tags_append, Scanner.tags_textEvents, List.nil_append] at hhead
    cases hhead
    have hcolon : 0x3A ∉ Utf8.encode root := Scanner.not_mem_of_plainName hroot rfl
    exact ⟨_, List.prefix_rfl, by rw [Scanner.localName_eq_self hcolon, Utf8.decodeLossy_encode]⟩

/-- **A document that breaks off.** Its first tag is the front of that of the whole document. It is read like the
whole document if at most the last bracket is missing, and otherwise its element is not closed. -/
theorem document_cut (hroot : PlainName root) (hplain : ∀ a ∈ as, PlainName a.1)
    (hnodup : (as.map Prod.fst).Nodup) (hms : Nested root ms [Utf8.encode root])
    (hl : l.breaks = false) (hp : p <+: l.bytes (.declaration :: .start root as :: ms))
    (supply supply' : Supply) :
    let s := Scanner.ofBytes p supply none
    let bs := l.bytes (.declaration :: .start root as :: ms)
    StartsWithin root s.events ∧ (.closing root ∉ s.events ∨
      (p = bs ∨ p ++ [0x3E] = bs) ∧ s.events = (Scanner.ofBytes bs supply' none).events) := by
  intro s bs
  have hbs : bs = 0x3C :: (Mark.declaration.inner ++ [0x3E]) ++ (l.write .declaration).2.bytes
      (.start root as :: ms) := by
    rw [← Layout.flatten_declaration hl]
    rfl
  rw [show l.bytes (.declaration :: .start root as :: ms) = _ from hbs] at hp
  rcases declaration_cut hp supply with hnone | ⟨q, hq, rfl⟩
  · exact ⟨by simp [s, StartsWithin, hnone], .inl (closing_not_mem_of_tags hnone)⟩
  · obtain ⟨u, hu, hcut⟩ := events_declaration q supply
    obtain ⟨t, ht, hwhole⟩ := events_declaration
      ((l.write .declaration).2.bytes (.start root as :: ms)) supply'
    have hnested : Nested root (.start root as :: ms) [] :=
      .tag (.start [] hroot hplain hnodup) (by simp) hms
    rw [show s.events = u.events from hcut]
    refine ⟨hu.startsWithin hroot hplain hnodup hq, ?_⟩
    rcases hnested.fallsShort _ q u t hq hu ht with hshort | ⟨hend, hsame⟩
    · exact .inl hshort
    · right
      rw [hbs, hwhole, hsame]
      exact ⟨hend.imp (fun h => by rw [h]) fun h => by rw [List.append_assoc, h], rfl⟩

end

end Marc21.Xml
