import Marc21.Xml.EventStream
import Marc21.Proofs.Xml.Markup

/-!
A written document is read back as events: a tag as itself, perhaps after white space
(`next_tag`), and text as itself and whole (`next_text`) unless it is empty (`next_empty`), whatever the
layout.
-/

namespace Marc21.Xml

/-! ## What a document comes to as bytes -/

/-- What stands between the brackets of a tag or a declaration. -/
def Mark.inner : Mark → Bytes
  | .declaration => 0x3F :: Utf8.encode "xml version=\"1.0\" encoding=\"UTF-8\"?"
  | .start name as => Utf8.encode (name ++ Mark.attributeText as)
  | .stop name => 0x2F :: Utf8.encode name
  | .text _ => []

namespace Layout

/-- The bytes of marks that are written one after the other. -/
def bytes (l : Layout) : List Mark → Bytes
  | [] => []
  | m :: ms => (l.write m).1.flatten ++ bytes (l.write m).2 ms

/-- The layout behind marks. -/
def after (l : Layout) (ms : List Mark) : Layout := ms.foldl (fun l m => (l.write m).2) l

theorem bytes_append (l : Layout) (ms ns : List Mark) :
    l.bytes (ms ++ ns) = l.bytes ms ++ (l.after ms).bytes ns := by
  induction ms generalizing l with
  | nil => rfl
  | cons m ms ih =>
    rw [List.cons_append, bytes, ih, bytes, List.append_assoc]
    rfl

theorem after_append (l : Layout) (ms ns : List Mark) : l.after (ms ++ ns) = (l.after ms).after ns :=
  List.foldl_append

/-- A line break as text. -/
def gap (l : Layout) : String :=
  if l.indent.isSome ∧ l.breaks then String.ofList ('\n' :: List.replicate l.depth ' ') else ""

theorem isBlankText_gap (l : Layout) : Blank.isBlankText l.gap = true := by
  unfold gap
  split
  · have hblank : Blank.isBlank ' ' = true := rfl
    have hline : Blank.isBlank '\n' = true := rfl
    simp [Blank.isBlankText, hblank, hline]
  · rfl

theorem gap_of_not_breaks {l : Layout} (h : l.breaks = false) : l.gap = "" := by
  rw [gap, if_neg (by simp [h])]

theorem flatten_lineBreak (l : Layout) :
    l.lineBreak.flatten = Utf8.encode (Reference.escape l.gap) := by
  unfold lineBreak gap
  split
  · have hblank : Utf8.encodeChar ' ' = [0x20] := rfl
    have hline : Utf8.encodeChar '\n' = [0x0A] := rfl
    rw [Reference.escape_eq_self, Utf8.encode_ofList, List.flatMap_cons, hline, List.flatMap_replicate,
      hblank, List.flatten_cons, List.flatten_singleton]
    · congr 1
      induction l.depth with
      | zero => rfl
      | succ n ih => rw [List.replicate_succ, ih, List.replicate_succ]; rfl
    · intro c hc
      rw [String.toList_ofList, List.mem_cons] at hc
      rcases hc with rfl | hc
      · decide
      · rw [List.eq_of_mem_replicate hc]
        decide
  · rfl

/-- A declaration at the start of a document. -/
theorem flatten_declaration {l : Layout} (hl : l.breaks = false) :
    (l.write .declaration).1.flatten = 0x3C :: (Mark.declaration.inner ++ [0x3E]) := by
  have hbreak : l.lineBreak = [] := by
    rw [lineBreak, if_neg (by simp [hl])]
  rw [write, hbreak]
  change (tagPieces "<?" "xml version=\"1.0\" encoding=\"UTF-8\"" "?>").flatten = _
  decide

end Layout

/-- A mark that is a tag is read as an event, and takes some open elements to others. -/
inductive Mark.Reads : Mark → List Bytes → Event → List Bytes → Prop where
  | start {name : String} {as : Attributes} (names : List Bytes) (hname : PlainName name)
      (hplain : ∀ a ∈ as, PlainName a.1) (hnodup : (as.map Prod.fst).Nodup) :
      Reads (.start name as) names (.opening name as) (Utf8.encode name :: names)
  | stop {name : String} (names : List Bytes) (hname : PlainName name) :
      Reads (.stop name) (Utf8.encode name :: names) (.closing name) names

theorem Mark.Reads.isTag {m : Mark} {names names' : List Bytes} {event : Event}
    (h : m.Reads names event names') : event.IsTag := by
  cases h <;> trivial

theorem Mark.Reads.tagReads {m : Mark} {names names' : List Bytes} {event : Event}
    (h : m.Reads names event names') (rest : Bytes) :
    Scanner.TagReads (m.inner ++ 0x3E :: rest) names event rest names' := by
  cases h with
  | start names hname hplain hnodup => exact Scanner.tagReads_start hname hplain hnodup rest names
  | stop names hname => exact Scanner.tagReads_stop hname rest names'

/-- A tag is written in brackets, with white space before it. -/
theorem Mark.Reads.bytes {m : Mark} {names names' : List Bytes} {event : Event}
    (h : m.Reads names event names') (l : Layout) : ∃ gap,
      (l.write m).1.flatten = Utf8.encode (Reference.escape gap) ++ 0x3C :: (m.inner ++ [0x3E]) ∧
        Blank.isBlankText gap = true ∧ (l.breaks = false → gap = "") := by
  have hclose : Utf8.encode ">" = [0x3E] := by decide
  cases h with
  | @start name as =>
    have hopen : Utf8.encode "<" = [0x3C] := by decide
    refine ⟨l.gap, ?_, l.isBlankText_gap, Layout.gap_of_not_breaks⟩
    simp only [Layout.write, List.flatten_append, Layout.flatten_lineBreak, tagPieces, List.map_cons,
      List.map_nil, List.flatten_cons, List.flatten_nil, hopen, hclose, List.append_nil, List.cons_append,
      List.nil_append, inner]
  | @stop name =>
    have hopen : Utf8.encode "</" = [0x3C, 0x2F] := by decide
    let outer : Layout := { l with depth := l.depth - l.indent.getD 0 }
    refine ⟨outer.gap, ?_, outer.isBlankText_gap, Layout.gap_of_not_breaks (l := outer)⟩
    simp only [Layout.write, List.flatten_append, Layout.flatten_lineBreak, tagPieces, List.map_cons,
      List.map_nil, List.flatten_cons, List.flatten_nil, hopen, hclose, List.append_nil, List.cons_append,
      List.nil_append, outer, inner]

theorem Mark.Reads.bytes_cons {m : Mark} {names names' : List Bytes} {event : Event}
    (h : m.Reads names event names') (l : Layout) (ms : List Mark) : ∃ gap,
      l.bytes (m :: ms) = Utf8.encode (Reference.escape gap) ++
        0x3C :: (m.inner ++ 0x3E :: (l.write m).2.bytes ms) ∧
      Blank.isBlankText gap = true ∧ (l.breaks = false → gap = "") := by
  obtain ⟨gap, hbytes, hgap⟩ := h.bytes l
  refine ⟨gap, ?_, hgap⟩
  rw [Layout.bytes, hbytes]
  simp only [List.append_assoc, List.cons_append, List.nil_append]

/-- Between text and a tag there is no other white space. -/
theorem Mark.Reads.bytes_text {m : Mark} {names names' : List Bytes} {event : Event}
    (h : m.Reads names event names') (l : Layout) (content : String) (ms : List Mark) :
    l.bytes (.text content :: m :: ms) = Utf8.encode (Reference.escape content) ++
      0x3C :: (m.inner ++ 0x3E :: (l.after [.text content, m]).bytes ms) := by
  obtain ⟨gap, hbytes, _, hnone⟩ := h.bytes_cons (l.write (.text content)).2 ms
  obtain rfl := hnone rfl
  have htext : (l.write (.text content)).1.flatten = Utf8.encode (Reference.escape content) :=
    List.flatten_singleton
  rw [Layout.bytes, htext, hbytes]
  rfl

/-! ## Events -/

namespace EventStream

/-- With these marks ahead, which are written in a layout, and within these elements. -/
structure Before (s : EventStream) (l : Layout) (ms : List Mark) (names : List Bytes) : Prop where
  ahead_eq : s.ahead = none
  scanner_at : s.scanner.At (l.bytes ms) names

section

variable {s t : Scanner} {token : Token}

/-- A tag ends the character data before it, and is itself next if there was none. -/
theorem gather_tag {event : Event} (text : Option (List String)) (hnext : s.next = (.ok token, t))
    (htoken : token.event? = .ok (some event)) (hevent : event.IsTag) :
    gather s text = match text with
      | none => (.ok event, ⟨t, none⟩)
      | some parts => (.ok (.text (String.join parts.reverse)), ⟨t, some event⟩) := by
  rw [gather, hnext]
  dsimp only
  rw [htoken]
  cases event with
  | text content => exact hevent.elim
  | endOfDocument => exact hevent.elim
  | opening name as => cases text <;> rfl
  | closing name => cases text <;> rfl

theorem gather_text {content : String} (hnext : s.next = (.ok token, t))
    (htoken : token.event? = .ok (some (.text content))) :
    gather s none = gather t (some [content]) := by
  rw [gather, hnext]
  dsimp only
  rw [htoken]
  rfl

theorem gather_passedOver (hnext : s.next = (.ok .passedOver, t)) (text : Option (List String)) :
    gather s text = gather t text := by
  rw [gather, hnext]
  rfl

end

/-- An event comes next, perhaps after white space. -/
def Brings (s : EventStream) (event : Event) (t : EventStream) : Prop :=
  s.next = (.ok event, t) ∨
    ∃ gap u, Blank.isBlankText gap = true ∧ s.next = (.ok (.text gap), u) ∧ u.next = (.ok event, t)

section

variable {s : EventStream} {l : Layout} {m : Mark} {ms : List Mark} {names names' : List Bytes}
  {event : Event}

private theorem next_of_scanner {s : Scanner} : next ⟨s, none⟩ = gather s none := rfl

/-- Text is read as a whole, and the tag behind it is kept. -/
private theorem next_text_tag {text : String} {body rest : Bytes} (hne : text ≠ "") {s : Scanner}
    (hs : s.At (Utf8.encode (Reference.escape text) ++ 0x3C :: body) names)
    (hbody : Scanner.TagReads body names event rest names') (hevent : event.IsTag) :
    ∃ t : Scanner, next ⟨s, none⟩ = (.ok (.text text), ⟨t, some event⟩) ∧ t.At rest names' := by
  obtain ⟨u, htext, token, t, hnext, htoken, ht⟩ := Scanner.next_text hne hs hbody hevent
  have hread : (Token.text (Utf8.encode (Reference.escape text))).event? = .ok (some (.text text)) := by
    rw [Token.event?, Reference.read_escape]
    rfl
  refine ⟨t, ?_, ht⟩
  rw [next_of_scanner, gather_text htext hread, gather_tag _ hnext htoken hevent]
  rfl

/-- **A written tag is read as its event.** -/
theorem next_tag (hs : s.Before l (m :: ms) names) (hm : m.Reads names event names') :
    ∃ t, s.Brings event t ∧ t.Before (l.write m).2 ms names' := by
  obtain ⟨scanner, _⟩ := s
  obtain ⟨rfl, hs⟩ := hs
  obtain ⟨gap, hbytes, hblank, _⟩ := hm.bytes_cons l ms
  rw [hbytes] at hs
  by_cases hgap : gap = ""
  · subst hgap
    obtain ⟨token, t, hnext, htoken, ht⟩ := Scanner.next_tag hs (hm.tagReads _) hm.isTag
    refine ⟨⟨t, none⟩, Or.inl ?_, rfl, ht⟩
    rw [next_of_scanner, gather_tag none hnext htoken hm.isTag]
  · obtain ⟨t, hnext, ht⟩ := next_text_tag hgap hs (hm.tagReads _) hm.isTag
    exact ⟨⟨t, none⟩, Or.inr ⟨gap, ⟨t, some event⟩, hblank, hnext, rfl⟩, rfl, ht⟩

/-- **Written text is read as it was**, and nothing comes between it and the tag behind it. -/
theorem next_text {content : String} (hne : content ≠ "")
    (hs : s.Before l (.text content :: m :: ms) names) (hm : m.Reads names event names') :
    ∃ u t, s.next = (.ok (.text content), u) ∧ u.next = (.ok event, t) ∧
      t.Before (l.after [.text content, m]) ms names' := by
  obtain ⟨scanner, _⟩ := s
  obtain ⟨rfl, hs⟩ := hs
  rw [hm.bytes_text l content ms] at hs
  obtain ⟨t, hnext, ht⟩ := next_text_tag hne hs (hm.tagReads _) hm.isTag
  exact ⟨⟨t, some event⟩, ⟨t, none⟩, hnext, rfl, rfl, ht⟩

/-- Nothing is read of empty text, and nothing comes between it and the tag behind it. -/
theorem next_empty (hs : s.Before l (.text "" :: m :: ms) names) (hm : m.Reads names event names') :
    ∃ t, s.next = (.ok event, t) ∧ t.Before (l.after [.text "", m]) ms names' := by
  obtain ⟨scanner, _⟩ := s
  obtain ⟨rfl, hs⟩ := hs
  rw [hm.bytes_text l "" ms] at hs
  obtain ⟨token, t, hnext, htoken, ht⟩ := Scanner.next_tag hs (hm.tagReads _) hm.isTag
  refine ⟨⟨t, none⟩, ?_, rfl, ht⟩
  rw [next_of_scanner, gather_tag none hnext htoken hm.isTag]

/-- The declaration at the start of a document is passed over. -/
theorem next_ofBytes (supply : Supply) (hl : l.breaks = false) : ∃ t : EventStream,
    (ofBytes (l.bytes (.declaration :: ms)) supply none).next = t.next ∧
      t.Before (l.write .declaration).2 ms [] := by
  have hrest : (Scanner.ofBytes (l.bytes (.declaration :: ms)) supply none).rest = 0x3C :: 0x3F ::
      (Utf8.encode "xml version=\"1.0\" encoding=\"UTF-8\"?" ++
        0x3E :: (l.write .declaration).2.bytes ms) := by
    rw [Scanner.ofBytes, Layout.bytes, Layout.flatten_declaration hl]
    simp [Mark.inner]
  obtain ⟨t, hnext, ht⟩ :=
    Scanner.next_instruction rfl hrest rfl rfl (by decide) (by decide) (by decide)
  refine ⟨⟨t, none⟩, ?_, rfl, ht⟩
  rw [ofBytes, next_of_scanner, gather_passedOver hnext, next_of_scanner]

end

end EventStream

end Marc21.Xml
