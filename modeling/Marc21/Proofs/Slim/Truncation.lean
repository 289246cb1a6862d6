import Marc21.Proofs.Slim.Documents
import Marc21.Proofs.Slim.RoundTrip
import Marc21.Proofs.Xml.Cut

/-!
A document that breaks off never passes for a shorter one (`readAll_cut`). The reader accepts a document only if
its collection is closed, or if it is a single record, and a writer's document that breaks off is neither.
-/

namespace Marc21

open Xml (Attributes Event EventStream Layout Mark Nested PlainName Scanner tags)

/-! ## The elements of a document -/

namespace Xml

/-- Marks that can stand within an element of this name. -/
def Inside (root : String) (ms : List Mark) : Prop :=
  ∀ rest names, Nested root rest names → Nested root (ms ++ rest) names

section

variable {root name : String} {as : Attributes} {ms ns : List Mark}

theorem Inside.append (h : Inside root ms) (h' : Inside root ns) : Inside root (ms ++ ns) := by
  intro rest names hrest
  rw [List.append_assoc]
  exact h _ _ (h' _ _ hrest)

theorem inside_flatMap {α : Type} {f : α → List Mark} {xs : List α} (h : ∀ x ∈ xs, Inside root (f x)) :
    Inside root (xs.flatMap f) := by
  induction xs with
  | nil => exact fun _ _ hrest => hrest
  | cons x xs ih =>
    obtain ⟨hx, hxs⟩ := List.forall_mem_cons.1 h
    rw [List.flatMap_cons]
    exact hx.append (ih hxs)

theorem inside_element (hname : PlainName name) (hplain : ∀ a ∈ as, PlainName a.1)
    (hnodup : (as.map Prod.fst).Nodup) (hne : name ≠ root) (h : Inside root ms) :
    Inside root (.start name as :: (ms ++ [.stop name])) := by
  intro rest names hrest
  rw [List.cons_append, List.append_assoc]
  refine .tag (.start names hname hplain hnodup) (by simp) (h _ _ ?_)
  exact .tag (.stop names hname) (by simpa using hne) hrest

theorem inside_textElement (hname : PlainName name) (hplain : ∀ a ∈ as, PlainName a.1)
    (hnodup : (as.map Prod.fst).Nodup) (hne : name ≠ root) (content : String) :
    Inside root (Slim.textElement name as content) := by
  intro rest names hrest
  exact .tag (.start names hname hplain hnodup) (by simp)
    (.text content (.stop names hname) (by simpa using hne) hrest)

end

end Xml

namespace Slim

open Xml (Inside inside_element inside_flatMap inside_textElement)

theorem inside_fieldMarks (f : Field) : Inside "collection" (fieldMarks f) := by
  unfold fieldMarks
  split
  · exact inside_textElement (by decide) (by simp; decide) (by simp) (by decide) _
  · refine inside_element (by decide) (by simp; decide) (by simp) (by decide) (inside_flatMap ?_)
    intro s _
    exact inside_textElement (by decide) (by simp; decide) (by simp) (by decide) _

theorem inside_recordMarks (r : Record) : Inside "collection" (recordMarks r) := by
  have hleader : Inside "collection" (textElement "leader" [] r.leader.text) :=
    inside_textElement (by decide) (by simp) (by simp) (by decide) _
  exact inside_element (by decide) (by simp) (by simp) (by decide)
    (hleader.append (inside_flatMap fun f _ => inside_fieldMarks f))

/-- Behind the opening of a document its collection is closed once, at the end. -/
theorem nested_document (rs : List Record) :
    Nested "collection" (rs.flatMap recordMarks ++ [.stop "collection"]) [Utf8.encode "collection"] :=
  inside_flatMap (fun r _ => inside_recordMarks r) _ _ (.last (by decide))

/-! ## What reading depends on -/

theorem tags_significant (inside : Bool) (es : List (Nat × Event)) :
    tags ((significant inside es).map Prod.snd) = tags (es.map Prod.snd) := by
  induction es generalizing inside with
  | nil => rfl
  | cons found es ih =>
    obtain ⟨line, event⟩ := found
    rw [significant]
    split
    · next hskip =>
      have htext : ¬event.IsTag := by
        intro htag
        cases event with
        | text content => exact htag
        | opening name as => cases hskip
        | closing name => cases hskip
        | endOfDocument => exact htag
      rw [ih, List.map_cons, Xml.tags_cons, if_neg htext]
    · rw [List.map_cons, List.map_cons, Xml.tags_cons, Xml.tags_cons, ih]

/-- Lines are for messages alone. -/
theorem map_significant_congr {es fs : List (Nat × Event)} (h : es.map Prod.snd = fs.map Prod.snd)
    (inside : Bool) : (significant inside es).map Prod.snd = (significant inside fs).map Prod.snd := by
  induction es generalizing fs inside with
  | nil =>
    rw [List.map_eq_nil_iff.1 h.symm]
  | cons found es ih =>
    obtain ⟨line, event⟩ := found
    obtain ⟨other, fs, rfl, hevent, hrest⟩ := List.map_eq_cons_iff.1 h.symm
    obtain ⟨line', event'⟩ := other
    obtain rfl : event' = event := hevent
    rw [significant, significant]
    split
    · exact ih hrest.symm inside
    · rw [List.map_cons, List.map_cons, ih hrest.symm]

/-- The events of an input. -/
def Input.events (input : Input) : List Event :=
  (Scanner.ofBytes input.bytes input.supply input.broken).events

theorem readAll_congr {input other : Input} (h : input.events = other.events) {rs : List Record}
    (hread : (RecordReader.xml (.ofInput input)).readAll.result = .ok rs) :
    (RecordReader.xml (.ofInput other)).readAll.result = .ok rs := by
  rw [readAll_eq_ok_iff] at hread ⊢
  obtain ⟨document, hrecords, hstart⟩ := hread
  have hmap : (EventStream.ofBytes input.bytes input.supply input.broken).events.map Prod.snd =
      (EventStream.ofBytes other.bytes other.supply other.broken).events.map Prod.snd := by
    rw [EventStream.map_events, EventStream.map_events]
    exact congrArg (Xml.merge none) h
  exact ⟨document, hrecords, map_significant_congr hmap false ▸ hstart⟩

/-- A document is closed, or it is a single record. -/
theorem closed_or_lone {input : Input} {rs : List Record}
    (hread : (RecordReader.xml (.ofInput input)).readAll.result = .ok rs) :
    .closing "collection" ∈ input.events ∨
      ∃ as, (tags input.events).head? = some (.opening "record" as) := by
  obtain ⟨document, _, hstart⟩ := (readAll_eq_ok_iff input rs).1 hread
  have htags := hstart.filter (·.IsTag)
  change tags _ <+: tags _ at htags
  rw [tags_significant, Xml.tags_events_ofBytes] at htags
  cases document with
  | collection as _ elements =>
    left
    refine Xml.closing_mem_tags.1 (htags.subset (Xml.closing_mem_tags.2 ?_))
    simp [Document.events]
  | lone element =>
    right
    refine ⟨element.attributes, ?_⟩
    have hopening : tags (Document.lone element).events =
        .opening "record" element.attributes :: tags (element.body ++ [.endOfDocument]) := rfl
    rw [hopening] at htags
    obtain ⟨rest, hrest⟩ := htags
    change _ = tags input.events at hrest
    rw [← hrest]
    rfl

/-- What the name of a collection starts with is not the name of a record. -/
theorem ne_record {known : Bytes} (h : known <+: Utf8.encode "collection") :
    Utf8.decodeLossy (Scanner.localName known) ≠ "record" := by
  have hall : ∀ known ∈ (Utf8.encode "collection").inits,
      Utf8.decodeLossy (Scanner.localName known) ≠ "record" := by decide
  exact hall known ((List.mem_inits _ _).2 h)

/-! ## Main result -/

/-- The front of a document is not read, unless at most its last bracket is missing. -/
theorem readAll_front {l : Layout} (hl : l.breaks = false) {rs : List Record} {front : Bytes}
    (hfront : front <+: l.bytes (document rs)) {supply supply' : Supply}
    {seekFailure seekFailure' : Option StreamFailure} {out : List Record}
    (hread : (RecordReader.xml (.ofInput ⟨front, supply, none, seekFailure⟩)).readAll.result = .ok out) :
    (front = l.bytes (document rs) ∨ front ++ [0x3E] = l.bytes (document rs)) ∧
      (RecordReader.xml (.ofInput ⟨l.bytes (document rs), supply', none, seekFailure'⟩)).readAll.result =
        .ok out := by
  obtain ⟨hstart, hshort⟩ := Xml.document_cut (by decide) (by simp; decide) (by simp)
    (nested_document rs) hl hfront supply supply'
  rcases closed_or_lone hread with hclosed | ⟨as, hlone⟩
  · obtain ⟨hend, hsame⟩ := hshort.resolve_left fun h => h hclosed
    have hevents : Input.events ⟨front, supply, none, seekFailure⟩ =
        Input.events ⟨l.bytes (document rs), supply', none, seekFailure'⟩ := hsame
    exact ⟨hend, readAll_congr hevents hread⟩
  · obtain ⟨known, hknown, hname⟩ := hstart "record" as hlone
    exact absurd hname.symm (ne_record hknown)

/-- **A document that breaks off never passes for a shorter one.** What records are written, in whatever form and
however the writer is closed: reading the front of the document to its end fails, unless only the last byte is
missing, which is a bracket, and then it gives what reading the whole document gives. -/
theorem readAll_cut {σ : Type} [ByteSink σ] (k : Reliable σ) {sink : σ} (hsink : k.sound sink)
    (calls : List Call) (closing : Closing) :
    let written := (Writer.ofSink sink).session calls closing
    written.1 = .ok () ∧ ∃ bs, k.taken written.2 = k.taken sink ++ bs ∧
      ∀ front, front <+: bs → front ≠ bs → ∀ supply supply' seekFailure seekFailure',
        let ofFront := (RecordReader.xml (.ofInput ⟨front, supply, none, seekFailure⟩)).readAll.result
        let ofWhole := (RecordReader.xml (.ofInput ⟨bs, supply', none, seekFailure'⟩)).readAll.result
        (∃ e, ofFront = .error e) ∨ front ++ [0x3E] = bs ∧ ∃ out, ofFront = .ok out ∧ ofWhole = .ok out := by
  obtain ⟨last, hsession, l, hl, htaken⟩ := Writer.session_spec hsink calls closing
  rw [hsession]
  refine ⟨rfl, _, htaken, fun front hfront hne supply supply' seekFailure seekFailure' => ?_⟩
  intro ofFront ofWhole
  cases hread : ofFront with
  | error e => exact .inl ⟨e, rfl⟩
  | ok out =>
    obtain ⟨hend, hwhole⟩ := readAll_front hl hfront hread
    exact .inr ⟨hend.resolve_left hne, out, rfl, hwhole⟩

/-- All that is missing is the end tag of the collection. -/
theorem readAll_cut_unclosed :
    let r := Record.ofParts (Leader.fresh .languageMaterial .monographOrItem) []
    let written := (Writer.ofSink BoundedSink.unbounded).session [.write r] .finish
    written.2.accepted.size = 160 ∧ ∃ e, (RecordReader.xml
      (.ofInput (.ofBytes (written.2.accepted.toList.take 147)))).readAll.result = .error e := by
  intro r
  have hsize : ((Writer.ofSink BoundedSink.unbounded).session [.write r] .finish).2.accepted.size =
      160 := by decide +kernel
  obtain ⟨_, bs, hbs, hcut⟩ :=
    readAll_cut BoundedSink.reliable BoundedSink.sound_unbounded [.write r] .finish
  rw [BoundedSink.taken_unbounded, List.nil_append] at hbs
  generalize (Writer.ofSink BoundedSink.unbounded).session [.write r] .finish = written at hsize hbs ⊢
  change written.2.accepted.toList = bs at hbs
  subst hbs
  have hwhole : written.2.accepted.toList.length = 160 := Array.length_toList.trans hsize
  have hfront : (written.2.accepted.toList.take 147).length = 147 := by
    rw [List.length_take, hwhole]
    rfl
  refine ⟨hsize, (hcut _ (List.take_prefix 147 _) ?_ _ (.window 160) none none).resolve_right ?_⟩
  · intro h
    rw [h, hwhole] at hfront
    cases hfront
  · rintro ⟨h, _⟩
    have hlength := congrArg List.length h
    rw [List.length_append, hfront, hwhole] at hlength
    cases hlength

end Slim

end Marc21
