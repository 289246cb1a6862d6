import Marc21.Xml.EventStream
import Marc21.Proofs.Xml.Attribute

/-!
Written markup is read back as events. A tag is described by what every scanner makes of it behind its `<`
(`TagReads`), so that it does not matter whether text comes before it, which the scanner reads together
with the `<`.
-/

namespace Marc21.Xml

open Attribute (written)

namespace Event

/-- Tags, as opposed to character data and the end of the document. -/
def IsTag : Event → Prop
  | opening _ _ | closing _ => True
  | text _ | endOfDocument => False

end Event

namespace Scanner

/-- Between tags, with these bytes ahead and within these elements, innermost first. -/
structure At (s : Scanner) (rest : Bytes) (names : List Bytes) : Prop where
  phase_eq : s.phase = .text
  rest_eq : s.rest = rest
  names_eq : s.names = names
  whole : s.broken = none

/-- Behind a `<`, a scanner takes these bytes for a tag. -/
def TagReads (body : Bytes) (names : List Bytes) (event : Event) (rest : Bytes)
    (names' : List Bytes) : Prop :=
  ∀ s : Scanner, s.rest = body → s.names = names → s.broken = none →
    ∃ token t, s.readTag = (.ok token, t) ∧ token.event? = .ok (some event) ∧ t.At rest names'

/-! ## Searches -/

theorem findEnd_append {α : Type} {step : α → UInt8 → α} {ends : α → Bool} {state : α}
    {content : Bytes} (seen rest : Bytes) (hcontent : 0x3E ∉ content)
    (hends : ends (content.foldl step state) = true) :
    findEnd step ends state seen (content ++ 0x3E :: rest) = some (seen.reverse ++ content, rest) := by
  induction content generalizing state seen with
  | nil => rw [List.nil_append, findEnd, if_pos ⟨rfl, hends⟩, List.append_nil]
  | cons b content ih =>
    rw [List.mem_cons, not_or] at hcontent
    rw [List.cons_append, findEnd, if_neg fun h => hcontent.1 h.1.symm, ih _ hcontent.2 hends,
      List.reverse_cons, List.append_assoc]
    rfl

theorem cut_append {b : UInt8} {before : Bytes} (rest : Bytes) (h : b ∉ before) :
    cut b (before ++ b :: rest) = (before, some rest) := by
  have hp : ∀ c ∈ before, (c != b) = true := fun c hc => bne_iff_ne.2 fun heq => h (heq ▸ hc)
  rw [cut, List.takeWhile_append_of_pos hp, List.dropWhile_append_of_pos hp,
    List.takeWhile_cons_of_neg (by simp), List.dropWhile_cons_of_neg (by simp), List.append_nil]

theorem localName_eq_self {name : Bytes} (h : 0x3A ∉ name) : localName name = name := by
  have hp : ∀ c ∈ name, (c != 0x3A) = true := fun c hc => bne_iff_ne.2 fun heq => h (heq ▸ hc)
  rw [localName, cut, List.dropWhile_eq_nil_iff.2 hp]

/-! ## Tags -/

section

variable {name : String} {as : Attributes}

theorem not_mem_of_plainName {b : UInt8} (hname : PlainName name) (hb : isPlain b = false) :
    b ∉ Utf8.encode name :=
  fun hmem => ne_of_isPlain (hname.2 b hmem) hb rfl

private theorem foldl_quoteStep {text : Bytes} {state : Option UInt8}
    (h : ∀ b ∈ text, quoteStep state b = state) : text.foldl quoteStep state = state := by
  induction text with
  | nil => rfl
  | cons b text ih =>
    obtain ⟨hb, htext⟩ := List.forall_mem_cons.1 h
    rw [List.foldl_cons, hb]
    exact ih htext

private theorem foldl_quoteStep_name (hname : PlainName name) :
    (Utf8.encode name).foldl quoteStep none = none := by
  apply foldl_quoteStep
  intro b hb
  have h1 : b ≠ 0x22 := ne_of_isPlain (hname.2 b hb) rfl
  have h2 : b ≠ 0x27 := ne_of_isPlain (hname.2 b hb) rfl
  rw [quoteStep, if_neg (by simp [h1, h2])]

/-- The quotes of an attribute open and close. -/
private theorem foldl_quoteStep_written {a : String × String} (ha : PlainName a.1) :
    (written a).foldl quoteStep none = none := by
  have hvalue : (Utf8.encode (Reference.escape a.2)).foldl quoteStep (some 0x22) = some 0x22 := by
    apply foldl_quoteStep
    intro b hb
    exact if_neg fun (heq : b = 0x22) => Attribute.quote_not_mem_escape a.2 (heq ▸ hb)
  have hblank : quoteStep none 0x20 = none := rfl
  have hequals : quoteStep none 0x3D = none := rfl
  have hopen : quoteStep none 0x22 = some 0x22 := rfl
  have hclose : quoteStep (some 0x22) 0x22 = none := rfl
  rw [written, List.foldl_cons, hblank, List.foldl_append, foldl_quoteStep_name ha, List.foldl_cons,
    hequals, List.foldl_cons, hopen, List.foldl_append, hvalue, List.foldl_cons, hclose, List.foldl_nil]

private theorem foldl_quoteStep_flatMap (has : ∀ a ∈ as, PlainName a.1) :
    (as.flatMap written).foldl quoteStep none = none := by
  induction as with
  | nil => rfl
  | cons a as ih =>
    obtain ⟨ha, has⟩ := List.forall_mem_cons.1 has
    rw [List.flatMap_cons, List.foldl_append, foldl_quoteStep_written ha, ih has]

private theorem bracket_not_mem_written {a : String × String} (ha : PlainName a.1) :
    0x3E ∉ written a := by
  have hvalue : 0x3E ∉ Utf8.encode (Reference.escape a.2) :=
    Reference.not_mem_encode_escape a.2 (by decide) (by decide) (by decide)
  have hname : 0x3E ∉ Utf8.encode a.1 := not_mem_of_plainName ha rfl
  simp [written, hname, hvalue]

/-- What stands between the brackets of a start tag. -/
theorem bracket_not_mem_tag (hname : PlainName name) (has : ∀ a ∈ as, PlainName a.1) :
    0x3E ∉ Utf8.encode (name ++ Mark.attributeText as) := by
  rw [Utf8.encode_append, Attribute.encode_attributeText, List.mem_append, not_or]
  refine ⟨not_mem_of_plainName hname rfl, ?_⟩
  intro hmem
  obtain ⟨a, ha, hmem⟩ := List.mem_flatMap.1 hmem
  exact bracket_not_mem_written (has a ha) hmem

/-- The name of a tag reaches up to its first attribute, also if the tag breaks off behind it. -/
theorem takeWhile_front (hname : PlainName name) {later : Bytes} (hlater : later <+: as.flatMap written) :
    (Utf8.encode name ++ later).takeWhile (!isSpace ·) = Utf8.encode name := by
  have hplain : ∀ b ∈ Utf8.encode name, (!isSpace b) = true := by
    intro b hb
    rw [not_isSpace_of_isPlain (hname.2 b hb)]
    rfl
  have hnone : later.takeWhile (!isSpace ·) = [] := by
    cases later with
    | nil => rfl
    | cons b later =>
      cases as with
      | nil => cases List.prefix_nil.1 hlater
      | cons a as =>
        obtain ⟨rfl, _⟩ := List.cons_prefix_cons.1 hlater
        exact List.takeWhile_cons_of_neg (by decide)
  rw [List.takeWhile_append_of_pos hplain, hnone, List.append_nil]

private theorem takeWhile_tag (hname : PlainName name) :
    (Utf8.encode (name ++ Mark.attributeText as)).takeWhile (!isSpace ·) = Utf8.encode name := by
  rw [Utf8.encode_append, Attribute.encode_attributeText]
  exact takeWhile_front hname List.prefix_rfl

private theorem take_tag :
    (Utf8.encode (name ++ Mark.attributeText as)).take (Utf8.encode name).length = Utf8.encode name := by
  rw [Utf8.encode_append]
  exact List.take_left' rfl

/-- A written tag does not close itself. -/
private theorem getLast?_tag_ne (hname : PlainName name) :
    (Utf8.encode (name ++ Mark.attributeText as)).getLast? ≠ some 0x2F := by
  rw [Utf8.encode_append, Attribute.encode_attributeText]
  rcases List.eq_nil_or_concat as with rfl | ⟨as, a, rfl⟩
  · rw [List.flatMap_nil, List.append_nil]
    intro h
    exact not_mem_of_plainName hname rfl (List.mem_of_getLast? h)
  · have hlast : (as.concat a).flatMap written = as.flatMap written ++ 0x20 :: (Utf8.encode a.1 ++
        0x3D :: 0x22 :: Utf8.encode (Reference.escape a.2)) ++ [0x22] := by
      simp [written]
    rw [hlast, ← List.append_assoc, List.getLast?_concat]
    decide

/-- A start tag opens its element. -/
private theorem startToken_tag (hname : PlainName name) (s : Scanner) :
    s.startToken (Utf8.encode (name ++ Mark.attributeText as)) =
      (.start (Utf8.encode (name ++ Mark.attributeText as)) (Utf8.encode name).length,
        { s with names := Utf8.encode name :: s.names }) := by
  rw [startToken, takeWhile_tag hname, if_neg (getLast?_tag_ne hname), take_tag]

private theorem event?_tag (hname : PlainName name) (hplain : ∀ a ∈ as, PlainName a.1)
    (hnodup : (as.map Prod.fst).Nodup) :
    (Token.start (Utf8.encode (name ++ Mark.attributeText as)) (Utf8.encode name).length).event? =
      .ok (some (.opening name as)) := by
  have hcolon : 0x3A ∉ Utf8.encode name := not_mem_of_plainName hname rfl
  simp only [Token.event?, take_tag, localName_eq_self hcolon, Utf8.decodeLossy_encode,
    Attribute.ofTag_written hplain hnodup]
  rfl

private theorem readTag_of_plain {s : Scanner} {b : UInt8} {more content rest : Bytes}
    (hrest : s.rest = b :: more) (hb : isPlain b = true)
    (hfind : findEnd quoteStep Option.isNone none [] s.rest = some (content, rest)) :
    s.readTag =
      let t := ({ s with phase := .text }.advance (0x3E :: content) rest).startToken content
      (.ok t.1, t.2) := by
  have h1 : b ≠ 0x21 := ne_of_isPlain hb rfl
  have h2 : b ≠ 0x2F := ne_of_isPlain hb rfl
  have h3 : b ≠ 0x3F := ne_of_isPlain hb rfl
  rw [hrest] at hfind
  simp only [readTag, hrest, if_neg h1, if_neg h2, if_neg h3, hfind]

/-- **A written start tag is read as an opening tag.** -/
theorem tagReads_start (hname : PlainName name) (hplain : ∀ a ∈ as, PlainName a.1)
    (hnodup : (as.map Prod.fst).Nodup) (rest : Bytes) (names : List Bytes) :
    TagReads (Utf8.encode (name ++ Mark.attributeText as) ++ 0x3E :: rest) names (.opening name as)
      rest (Utf8.encode name :: names) := by
  intro s hrest hnames hbroken
  have hends : (Utf8.encode (name ++ Mark.attributeText as)).foldl quoteStep none = none := by
    rw [Utf8.encode_append, Attribute.encode_attributeText, List.foldl_append,
      foldl_quoteStep_name hname, foldl_quoteStep_flatMap hplain]
  have hfind : findEnd quoteStep Option.isNone none [] s.rest =
      some (Utf8.encode (name ++ Mark.attributeText as), rest) := by
    rw [hrest, findEnd_append [] rest (bracket_not_mem_tag hname hplain) (by rw [hends]; rfl)]
    rfl
  obtain ⟨b, more, hbytes⟩ := List.exists_cons_of_ne_nil hname.1
  have hb : isPlain b = true := hname.2 b (hbytes ▸ List.mem_cons_self)
  have hfirst : s.rest = b :: (more ++ Utf8.encode (Mark.attributeText as) ++ 0x3E :: rest) := by
    rw [hrest, Utf8.encode_append, hbytes]
    rfl
  have hread := readTag_of_plain hfirst hb hfind
  rw [startToken_tag hname] at hread
  exact ⟨_, _, hread, event?_tag hname hplain hnodup,
    ⟨rfl, rfl, congrArg (Utf8.encode name :: ·) hnames, hbroken⟩⟩

/-- There is no white space in a plain name. -/
theorem trimName_of_isPlain {bs : Bytes} (h : ∀ b ∈ bs, isPlain b = true) : trimName bs = bs := by
  rcases List.eq_nil_or_concat bs with rfl | ⟨before, b, rfl⟩
  · rfl
  · have hb : isSpace b = false := not_isSpace_of_isPlain (h b (by simp))
    rw [List.concat_eq_append, trimName, if_neg (by simp [hb]), List.reverse_append,
      List.reverse_singleton, List.singleton_append, List.dropWhile_cons_of_neg (by simp [hb]),
      List.reverse_cons, List.reverse_reverse]

theorem tagReads_stop (hname : PlainName name) (rest : Bytes) (names : List Bytes) :
    TagReads (0x2F :: (Utf8.encode name ++ 0x3E :: rest)) (Utf8.encode name :: names) (.closing name)
      rest names := by
  intro s hrest hnames hbroken
  have hbracket : 0x3E ∉ 0x2F :: Utf8.encode name := by
    rw [List.mem_cons, not_or]
    exact ⟨by decide, not_mem_of_plainName hname rfl⟩
  have hcut : cut 0x3E (0x2F :: (Utf8.encode name ++ 0x3E :: rest)) =
      (0x2F :: Utf8.encode name, some rest) := cut_append rest hbracket
  have htrim : trimName (Utf8.encode name) = Utf8.encode name := trimName_of_isPlain hname.2
  have hcolon : 0x3A ∉ Utf8.encode name := not_mem_of_plainName hname rfl
  have hread : s.readTag = (.ok (.stop (Utf8.encode name)),
      { { s with phase := .text }.advance (0x3E :: 0x2F :: Utf8.encode name) rest with names }) := by
    simp only [readTag, hrest, readUntil, hcut, stopToken]
    simp [advance, hnames, htrim]
  refine ⟨_, _, hread, ?_, ⟨rfl, rfl, rfl, hbroken⟩⟩
  rw [Token.event?, localName_eq_self hcolon, Utf8.decodeLossy_encode]
  rfl

end

/-! ## Tokens -/

section

variable {s t : Scanner} {token : Token} {names names' : List Bytes} {event : Event}
  {body rest : Bytes}

private theorem next_of_readAny (h : s.readAny = (.ok token, t)) (hne : token ≠ .endOfInput) :
    s.next = (.ok token, t) := by
  rw [next, h]
  cases token with
  | endOfInput => exact absurd rfl hne
  | _ => rfl

private theorem ne_endOfInput (htoken : token.event? = .ok (some event)) (hevent : event.IsTag) :
    token ≠ .endOfInput := by
  rintro rfl
  cases htoken
  exact hevent

/-- A tag is next. -/
theorem next_tag (hs : s.At (0x3C :: body) names) (hbody : TagReads body names event rest names')
    (hevent : event.IsTag) : ∃ token t, s.next = (.ok token, t) ∧
      token.event? = .ok (some event) ∧ t.At rest names' := by
  obtain ⟨token, t, hread, htoken, ht⟩ := hbody (s.advance [0x3C] body) rfl hs.names_eq hs.whole
  refine ⟨token, t, next_of_readAny ?_ (ne_endOfInput htoken hevent), htoken, ht⟩
  rw [readAny, hs.phase_eq]
  dsimp only
  rw [readText, hs.rest_eq]
  exact hread

theorem readText_of_text {content : Bytes} (hrest : s.rest = content ++ 0x3C :: body)
    (hbracket : 0x3C ∉ content) (hne : content ≠ []) : s.readText =
      (.ok (.text content), { s.advance (0x3C :: content) body with phase := .tag }) := by
  have huntil : s.readUntil 0x3C = (.ok (some content), s.advance (0x3C :: content) body) := by
    rw [readUntil, hrest, cut_append body hbracket]
  obtain ⟨b, more, rfl⟩ := List.exists_cons_of_ne_nil hne
  unfold readText
  split
  · next h =>
    rw [hrest] at h
    exact absurd ((List.cons.inj h).1 ▸ List.mem_cons_self) hbracket
  · rw [huntil]

/-- Text is next, and behind it a tag. -/
theorem next_text {text : String} (hne : text ≠ "")
    (hs : s.At (Utf8.encode (Reference.escape text) ++ 0x3C :: body) names)
    (hbody : TagReads body names event rest names') (hevent : event.IsTag) :
    ∃ u, s.next = (.ok (.text (Utf8.encode (Reference.escape text))), u) ∧ ∃ token t,
      u.next = (.ok token, t) ∧ token.event? = .ok (some event) ∧ t.At rest names' := by
  have hbracket : 0x3C ∉ Utf8.encode (Reference.escape text) :=
    Reference.not_mem_encode_escape text (by decide) (by decide) (by decide)
  let u : Scanner :=
    { s.advance (0x3C :: Utf8.encode (Reference.escape text)) body with phase := .tag }
  have hread : s.readAny = (.ok (.text (Utf8.encode (Reference.escape text))), u) := by
    rw [readAny, hs.phase_eq]
    exact readText_of_text hs.rest_eq hbracket (Reference.encode_escape_ne_nil hne)
  obtain ⟨token, t, htag, htoken, ht⟩ := hbody u rfl hs.names_eq hs.whole
  exact ⟨u, next_of_readAny hread (by simp), token, t,
    next_of_readAny htag (ne_endOfInput htoken hevent), htoken, ht⟩

/-- An instruction at the start of a document is passed over. -/
theorem next_instruction {content : Bytes} (hphase : s.phase = .document)
    (hrest : s.rest = 0x3C :: 0x3F :: (content ++ 0x3E :: rest)) (hnames : s.names = names)
    (hwhole : s.broken = none) (hbracket : 0x3E ∉ content) (hlast : content.getLast? = some 0x3F)
    (hlength : 2 ≤ content.length) : ∃ t, s.next = (.ok .passedOver, t) ∧ t.At rest names := by
  have hmark : s.skipMark = s := by
    unfold skipMark
    split
    · next h =>
      rw [hrest] at h
      cases h
    · rfl
  have hcontent : 0x3E ∉ 0x3F :: content := by
    rw [List.mem_cons, not_or]
    exact ⟨by decide, hbracket⟩
  have hcut : cut 0x3E (0x3F :: (content ++ 0x3E :: rest)) = (0x3F :: content, some rest) :=
    cut_append rest hcontent
  have hends : (0x3F :: content).getLast? = some 0x3F := by
    rw [List.getLast?_cons, hlast]
    rfl
  have htoken : instructionToken (0x3F :: content) = .ok .passedOver :=
    if_pos ⟨Nat.succ_le_succ hlength, hends⟩
  let u : Scanner := { s.advance [0x3C] (0x3F :: (content ++ 0x3E :: rest)) with phase := .text }
  have hread : s.readAny = (.ok .passedOver, u.advance (0x3E :: 0x3F :: content) rest) := by
    rw [readAny, hphase]
    simp only [hmark, readText, hrest]
    simp only [readTag, advance, readUntil, hcut, Option.getD_some, htoken]
    rfl
  exact ⟨_, next_of_readAny hread (by simp), rfl, rfl, hnames, hwhole⟩

end

end Scanner

end Marc21.Xml
