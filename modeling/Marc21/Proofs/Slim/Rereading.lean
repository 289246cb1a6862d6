import Marc21.Proofs.Format.Reader
import Marc21.Proofs.Record.ControlFields
import Marc21.Proofs.Slim.Reading
import Marc21.Proofs.Slim.Writer

/-!
What reading makes of records that were written as a document, whatever they hold. An empty control field
and a subfield without a value get lost, and so does a data field in which no subfield is left
(`Field.reread?`). A control field behind a data field ends the reading. So a document is read exactly if the
control fields of each record come first (`readAll_facing`), and the marks of a field, of the leader and of
a record each take the grammar from one stage to the next.
-/

namespace Marc21

/-- What a document carries of a field: text that is not empty, or the indicators and the subfields with
values, unless there are none. -/
def Field.reread? (f : Field) : Option Field :=
  if f.isControl then if f.contents = "" then none else some f
  else
    let ss := f.subfields.filter (·.value ≠ "")
    if ss = [] then none
    else some (Field.data f.tag (f.indicator1?.getD ' ') (f.indicator2?.getD ' ') ss)

theorem Field.reread?_of_data {f : Field} (hf : f.isControl = false) : f.reread? =
    if f.subfields.filter (·.value ≠ "") = [] then none
    else some (Field.data f.tag (f.indicator1?.getD ' ') (f.indicator2?.getD ' ')
      (f.subfields.filter (·.value ≠ ""))) :=
  if_neg (by simp [hf])

namespace Slim

open Xml (Attributes Event EventStream Layout Mark PlainName)

/-! ## The leader -/

theorem fillBlank_digits (width n : Nat) :
    fillBlank (Decimal.digits (width + 1) n) = Decimal.digits (width + 1) n := by
  have hdigit : Decimal.digit n ∈ Decimal.digits (width + 1) n :=
    List.mem_append_right _ (List.mem_singleton_self _)
  have hne : Decimal.digit n ≠ 0x20 := by
    intro h
    have := Decimal.toNat_digit n
    rw [h] at this
    change 32 = _ at this
    omega
  rw [fillBlank, if_neg]
  intro hall
  exact hne (eq_of_beq (List.all_eq_true.1 hall _ hdigit))

private theorem append_cuts (bs : Bytes) : bs.take 5 ++ (bs.drop 5).take 7 ++ (bs.drop 12).take 5 ++
    bs.drop 17 = bs := by
  have hlast := List.take_append_drop 5 (bs.drop 12)
  have hmiddle := List.take_append_drop 7 (bs.drop 5)
  rw [List.drop_drop] at hlast hmiddle
  rw [List.append_assoc, hlast, List.append_assoc, hmiddle, List.take_append_drop]

/-- The leader is read back from its text, in which no number is left blank. -/
theorem leaderOfText_text {l : Leader} (h : l.Fits) : leaderOfText l.text = .ok l := by
  have hascii : l.bytes.all (· < 0x80) = true :=
    List.all_eq_true.2 fun b hb => decide_eq_true (Leader.lt_of_mem_bytes h.encodable.ascii hb)
  have hfirst : l.bytes.take 5 = Decimal.digits 5 l.recordLength := rfl
  have hsecond : (l.bytes.drop 12).take 5 = Decimal.digits 5 l.baseAddress := rfl
  have hread := Leader.ofBytes_bytes h.encodable h.recordLength_le h.baseAddress_le []
  rw [List.append_nil, ← append_cuts l.bytes, hfirst, hsecond] at hread
  simp only [leaderOfText, Leader.encode_text h.encodable.ascii, Leader.length_bytes, hascii, hfirst, hsecond,
    fillBlank_digits, hread]
  rfl

/-! ## Fields -/

section

variable {s : EventStream} {l : Layout} {ms : List Mark} {names : List Bytes} {d : Draft} {f : Field}

theorem leads_control (hs : s.Before l (fieldMarks f ++ ms) names) (hf : f.isControl = true)
    (hseen : d.dataSeen = false) :
    ∃ t, Leads s (.fields d) t (.fields { d with fields := f.reread?.toList ++ d.fields }) ∧
      t.Before (l.after (fieldMarks f)) ms names := by
  have hmarks : fieldMarks f = textElement "controlfield" [("tag", f.tag.text)] f.contents := if_pos hf
  have hrequired : requiredTag [("tag", f.tag.text)] "controlfield" = .ok f.tag :=
    requiredTag_eq_ok.2 rfl
  rw [hmarks] at hs ⊢
  apply leads_textElement hs (by decide) (by simp; decide) (by simp) rfl
    (fun _ => rfl) (awaits_control d f.tag)
  · intro line
    rw [Stage.react, Stage.openField, if_pos rfl, hseen, hrequired]
    rfl
  · intro start
    rw [Field.reread?, if_pos hf, Stage.withControlField]
    split
    · exact ⟨_, rfl⟩
    · exact ⟨_, rfl⟩

theorem readEvents_lateControl (hs : s.Before l (fieldMarks f ++ ms) names) (hf : f.isControl = true)
    (hseen : d.dataSeen = true) : ∃ e, (readEvents s (.fields d)).result = .error e := by
  have hmarks : fieldMarks f = textElement "controlfield" [("tag", f.tag.text)] f.contents := if_pos hf
  rw [hmarks] at hs
  obtain ⟨line, herror⟩ := readEvents_failed (a := .fields d)
    (e := fun line => .malformedXml line .controlFieldLate) hs
    (.start names (by decide) (by simp; decide) (by simp)) rfl fun line => by
      rw [Stage.react, Stage.openField, if_pos rfl, hseen]
      rfl
  exact ⟨_, herror⟩

def subfieldMarks (ss : Subfields) : List Mark :=
  ss.flatMap fun s => textElement "subfield" [("code", s.code.toString)] s.value

theorem leads_subfield {g : DataDraft} {x : Subfield}
    (hs : s.Before l (textElement "subfield" [("code", x.code.toString)] x.value ++ ms) names) :
    ∃ t, Leads s (.subfields d g) t
        (.subfields d { g with subfields := [x].filter (·.value ≠ "") ++ g.subfields }) ∧
      t.Before (l.after (textElement "subfield" [("code", x.code.toString)] x.value)) ms names := by
  have hrequired : requiredChar [("code", x.code.toString)] "subfield" "code" = .ok x.code :=
    requiredChar_eq_ok.2 rfl
  apply leads_textElement hs (by decide) (by simp; decide) (by simp) rfl
    (fun _ => rfl) (awaits_subfield d g x.code)
  · intro line
    rw [Stage.react, if_pos rfl, hrequired]
    rfl
  · intro start
    rw [Stage.withSubfield]
    split
    · next hempty => exact ⟨[.subfieldDropped g.tag x.code start], by simp [hempty]⟩
    · next hvalue => exact ⟨[], by simp [hvalue]⟩

theorem leads_subfields {g : DataDraft} {ss : Subfields} (hs : s.Before l (subfieldMarks ss ++ ms) names) :
    ∃ t, Leads s (.subfields d g) t
        (.subfields d { g with subfields := (ss.filter (·.value ≠ "")).reverse ++ g.subfields }) ∧
      t.Before (l.after (subfieldMarks ss)) ms names := by
  induction ss generalizing s l g with
  | nil => exact ⟨s, Leads.refl s _, hs⟩
  | cons x ss ih =>
    have hmarks : subfieldMarks (x :: ss) =
        textElement "subfield" [("code", x.code.toString)] x.value ++ subfieldMarks ss :=
      List.flatMap_cons
    have hkept : (([x] : Subfields).filter (·.value ≠ "")).reverse = [x].filter (·.value ≠ "") := by
      by_cases hvalue : x.value = "" <;> simp [hvalue]
    rw [hmarks, List.append_assoc] at hs
    obtain ⟨u, hfirst, hu⟩ := leads_subfield (d := d) (g := g) hs
    obtain ⟨t, hrest, ht⟩ :=
      ih (g := { g with subfields := [x].filter (·.value ≠ "") ++ g.subfields }) hu
    refine ⟨t, ?_, ?_⟩
    · rw [← List.singleton_append, List.filter_append, List.reverse_append, hkept, List.append_assoc]
      exact hfirst.trans hrest
    · rw [hmarks, Layout.after_append]
      exact ht

/-- The attributes of a data field. -/
private def dataAttributes (tag : Tag) (i j : Char) : Attributes :=
  [("tag", tag.text), ("ind1", i.toString), ("ind2", j.toString)]

private theorem react_openData (d : Draft) (tag : Tag) (i j : Char) (line : Nat) :
    (Stage.fields d).react line (.opening "datafield" (dataAttributes tag i j)) =
      .goOn (.subfields { d with dataSeen := true } ⟨tag, i, j, line, []⟩) [] := by
  have htag : requiredTag (dataAttributes tag i j) "datafield" = .ok tag := requiredTag_eq_ok.2 rfl
  have hfirst : requiredChar (dataAttributes tag i j) "datafield" "ind1" = .ok i := requiredChar_eq_ok.2 rfl
  have hsecond : requiredChar (dataAttributes tag i j) "datafield" "ind2" = .ok j := requiredChar_eq_ok.2 rfl
  rw [Stage.react, Stage.openField, if_neg (by decide), if_pos rfl, htag, hfirst, hsecond]
  rfl

private theorem react_closeData (hf : f.isControl = false) (d : Draft) (start line : Nat) :
    ∃ notices, (Stage.subfields d ⟨f.tag, f.indicator1?.getD ' ', f.indicator2?.getD ' ', start,
        (f.subfields.filter (·.value ≠ "")).reverse⟩).react line (.closing "datafield") =
      .goOn (.fields { d with fields := f.reread?.toList ++ d.fields }) notices := by
  rw [Stage.react, if_pos rfl, Stage.withDataField, Field.reread?_of_data hf]
  by_cases hnone : f.subfields.filter (·.value ≠ "") = []
  · rw [if_pos hnone, if_pos (by rw [hnone]; rfl)]
    exact ⟨_, rfl⟩
  · rw [if_neg hnone, if_neg (by rwa [List.reverse_eq_nil_iff]), List.reverse_reverse]
    exact ⟨_, rfl⟩

theorem leads_data (hs : s.Before l (fieldMarks f ++ ms) names) (hf : f.isControl = false) :
    ∃ t, Leads s (.fields d) t
        (.fields { d with fields := f.reread?.toList ++ d.fields, dataSeen := true }) ∧
      t.Before (l.after (fieldMarks f)) ms names := by
  have hmarks : fieldMarks f = .start "datafield"
      (dataAttributes f.tag (f.indicator1?.getD ' ') (f.indicator2?.getD ' ')) ::
        (subfieldMarks f.subfields ++ [.stop "datafield"]) := if_neg (by simp [hf])
  have hplain (tag : Tag) (i j : Char) : ∀ a ∈ dataAttributes tag i j, PlainName a.1 := by
    simp only [dataAttributes, List.forall_mem_cons]
    decide
  have hnodup (tag : Tag) (i j : Char) : ((dataAttributes tag i j).map Prod.fst).Nodup := by
    simp [dataAttributes]
  rw [hmarks] at hs ⊢
  rw [List.cons_append, List.append_assoc] at hs
  obtain ⟨u, start, hopen, hu⟩ := leads_tag (a := .fields d)
    (b := fun line => .subfields { d with dataSeen := true }
      ⟨f.tag, f.indicator1?.getD ' ', f.indicator2?.getD ' ', line, []⟩) hs
    (.start names (by decide) (hplain _ _ _) (hnodup _ _ _)) rfl
    fun line => ⟨[], react_openData d f.tag _ _ line⟩
  obtain ⟨v, hmiddle, hv⟩ := leads_subfields (d := { d with dataSeen := true })
    (g := ⟨f.tag, f.indicator1?.getD ' ', f.indicator2?.getD ' ', start, []⟩) hu
  rw [List.append_nil] at hmiddle
  obtain ⟨t, _, hclose, ht⟩ := leads_tag
    (b := fun _ => .fields { d with fields := f.reread?.toList ++ d.fields, dataSeen := true }) hv
    (.stop names (by decide)) rfl (react_closeData hf { d with dataSeen := true } start)
  refine ⟨t, hopen.trans (hmiddle.trans hclose), ?_⟩
  rw [← List.cons_append, Layout.after_append]
  exact ht

/-- Fields that can be read one after the other, behind a data field if there was one. -/
def InTurn : Bool → List Field → Prop
  | _, [] => True
  | seen, f :: fs => (f.isControl = true → seen = false) ∧ InTurn (seen || !f.isControl) fs

theorem inTurn_true {fs : List Field} : InTurn true fs ↔ ∀ f ∈ fs, f.isControl = false := by
  induction fs with
  | nil => simp [InTurn]
  | cons f fs ih => simp [InTurn, ih]

theorem inTurn_false {fs : List Field} : InTurn false fs ↔ ControlFirst fs := by
  induction fs with
  | nil => simp [InTurn, ControlFirst]
  | cons f fs ih =>
    rw [InTurn, ControlFirst, List.pairwise_cons, ← ControlFirst, ← ih]
    cases hf : f.isControl with
    | true => simp
    | false =>
      have hlater : InTurn true fs → InTurn false fs := by
        rw [inTurn_true, ih]
        exact fun hdata => List.pairwise_of_forall_mem_list fun g _ h hh hcontrol => by
          rw [hdata h hh] at hcontrol
          cases hcontrol
      simp only [Bool.false_eq_true, false_implies, true_and, Bool.not_false, Bool.or_true, imp_false,
        Bool.not_eq_true, ← inTurn_true]
      exact ⟨fun h => ⟨h, hlater h⟩, And.left⟩

/-- Fields in turn are read, and a control field out of turn ends the reading. -/
theorem leads_fields {fs : List Field} (hs : s.Before l (fs.flatMap fieldMarks ++ ms) names) :
    (InTurn d.dataSeen fs ∧ ∃ seen t, Leads s (.fields d) t (.fields
        { d with fields := (fs.filterMap Field.reread?).reverse ++ d.fields, dataSeen := seen }) ∧
      t.Before (l.after (fs.flatMap fieldMarks)) ms names) ∨
    (¬InTurn d.dataSeen fs ∧ ∃ e, (readEvents s (.fields d)).result = .error e) := by
  induction fs generalizing s l d with
  | nil => exact .inl ⟨trivial, d.dataSeen, s, Leads.refl s _, hs⟩
  | cons f fs ih =>
    rw [List.flatMap_cons, List.append_assoc] at hs
    by_cases hlate : f.isControl = true ∧ d.dataSeen = true
    · right
      refine ⟨fun h => ?_, readEvents_lateControl hs hlate.1 hlate.2⟩
      exact Bool.false_ne_true ((h.1 hlate.1).symm.trans hlate.2)
    · -- The field is read, and it has to be seen what becomes of the others.
      obtain ⟨u, hone, hu⟩ : ∃ u, Leads s (.fields d) u (.fields
            ⟨d.lone, d.leader, f.reread?.toList ++ d.fields, d.dataSeen || !f.isControl⟩) ∧
          u.Before (l.after (fieldMarks f)) (fs.flatMap fieldMarks ++ ms) names := by
        cases hf : f.isControl with
        | true =>
          have hseen : d.dataSeen = false := by simpa [hf] using hlate
          simpa [hseen] using leads_control hs hf hseen
        | false => simpa using leads_data hs hf
      have hturn : InTurn d.dataSeen (f :: fs) ↔ InTurn (d.dataSeen || !f.isControl) fs := by
        rw [InTurn]
        exact and_iff_right fun hf => Bool.eq_false_iff.2 fun hseen => hlate ⟨hf, hseen⟩
      have hfields : ((f :: fs).filterMap Field.reread?).reverse ++ d.fields =
          (fs.filterMap Field.reread?).reverse ++ (f.reread?.toList ++ d.fields) := by
        cases hkept : f.reread? <;> simp [hkept]
      rw [hturn, hfields, List.flatMap_cons, Layout.after_append]
      rcases ih hu with ⟨hin, seen, t, hrest, ht⟩ | ⟨hout, e, herror⟩
      · exact .inl ⟨hin, seen, t, hone.trans hrest, ht⟩
      · exact .inr ⟨hout, e, hone.result_eq.trans herror⟩

/-! ## Records -/

/-- What reading makes of a record that was written, if it is read. -/
def reread (r : Record) : Record := (Record.ofParts r.leader (r.fields.filterMap Field.reread?)).sorted

theorem leads_leader (lone : Bool) {leader : Leader}
    (hs : s.Before l (textElement "leader" [] leader.text ++ ms) names) (h : leader.Fits) :
    ∃ t, Leads s (.leaderStart lone) t (.fields ⟨lone, leader, [], false⟩) ∧
      t.Before (l.after (textElement "leader" [] leader.text)) ms names := by
  apply leads_textElement hs (by decide) (by simp) (by simp) rfl
    (fun _ => rfl) (awaits_leader lone)
  · intro line
    rw [Stage.react, if_pos rfl]
  · intro start
    refine ⟨leader.notices, ?_⟩
    rw [Stage.withLeader, leaderOfText_text h]
    rfl

/-- A record within a collection is read whole, unless its control fields do not come first. -/
theorem readEvents_recordMarks {r : Record} (hs : s.Before l (recordMarks r ++ ms) names)
    (hr : r.leader.Fits) :
    (ControlFirst r.fields ∧ (readEvents s .member).result = .ok (some (reread r, false)) ∧
      (readEvents s .member).state.Before (l.after (recordMarks r)) ms names) ∨
    (¬ControlFirst r.fields ∧ ∃ e, (readEvents s .member).result = .error e) := by
  have hmarks : recordMarks r ++ ms = .start "record" [] :: (textElement "leader" [] r.leader.text ++
      (r.fields.flatMap fieldMarks ++ .stop "record" :: ms)) := by
    simp [recordMarks]
  have hafter : l.after (recordMarks r) = (((l.write (.start "record" [])).2.after
      (textElement "leader" [] r.leader.text)).after (r.fields.flatMap fieldMarks)).after
        [.stop "record"] := by
    simp [recordMarks, Layout.after]
  rw [hmarks] at hs
  obtain ⟨t, _, hopen, ht⟩ := leads_tag (a := .member) (b := fun _ => .leaderStart false) hs
    (.start names (by decide) (by simp) (by simp)) rfl fun line => ⟨[], rfl⟩
  obtain ⟨u, hleader, hu⟩ := leads_leader false ht hr
  have hstart := hopen.trans hleader
  rcases leads_fields (d := ⟨false, r.leader, [], false⟩) hu with
    ⟨hin, seen, v, hfields, hv⟩ | ⟨hout, e, herror⟩
  · have hclose (line : Nat) : (Stage.fields ⟨false, r.leader,
        (r.fields.filterMap Field.reread?).reverse ++ [], seen⟩).react line (.closing "record") =
        .record (reread r) false := by
      rw [List.append_nil, Stage.react, if_pos rfl, Draft.finish, List.reverse_reverse]
      rfl
    obtain ⟨hresult, hstate⟩ := readEvents_record hv (.stop names (by decide)) rfl hclose
    have hleads := hstart.trans hfields
    refine .inl ⟨inTurn_false.1 hin, ?_, ?_⟩
    · rw [hleads.result_eq, hresult]
    · rw [hleads.state_eq, hafter]
      exact hstate
  · exact .inr ⟨mt inTurn_false.2 hout, e, hstart.result_eq.trans herror⟩

end

/-! ## A reader of a document -/

/-- A reader that has these records ahead of it in an open collection, whatever comes before them. -/
def Facing (r : Reader) (rs : List Record) : Prop :=
  ∃ s stage t, ∃ l : Layout, r.read = r.readFrom s stage ∧ Leads s stage t .member ∧
    t.Before l (rs.flatMap recordMarks ++ [.stop "collection"]) [Utf8.encode "collection"]

theorem facing_ofInput {l : Layout} (hl : l.breaks = false) (supply : Supply)
    (seekFailure : Option StreamFailure) (rs : List Record) :
    Facing (.ofInput ⟨l.bytes (document rs), supply, none, seekFailure⟩) rs := by
  have hmarks : document rs = .declaration :: .start "collection" [("xmlns", slimNamespace)] ::
      (rs.flatMap recordMarks ++ [.stop "collection"]) := rfl
  obtain ⟨s, hnext, hs⟩ := EventStream.next_ofBytes supply hl
  rw [hmarks]
  have hopen (line : Nat) : Stage.root.react line
      (.opening "collection" [("xmlns", slimNamespace)]) = .goOn .member [] := rfl
  obtain ⟨t, _, hleads, ht⟩ := leads_tag (a := .root) (b := fun _ => .member) hs
    (.start [] (by decide) (by simp; decide) (by simp)) rfl fun line => ⟨[], hopen line⟩
  exact ⟨_, .root, t, _, rfl, (Leads.of_next_eq hnext .root).trans hleads, ht⟩

section

variable {r : Reader} {q : Record} {rs : List Record}

theorem read_nil (h : Facing r []) : r.read.result = .ok none := by
  obtain ⟨s, stage, t, l, hread, hleads, ht⟩ := h
  have hresult := readEvents_closed (a := .member) ht (.stop [] (by decide)) rfl fun _ => rfl
  rw [← hleads.result_eq] at hresult
  rw [hread, Reader.readFrom]
  split
  · next heq => simp [heq] at hresult
  · rfl
  · next heq => simp [heq] at hresult

theorem read_cons (h : Facing r (q :: rs)) (hq : q.leader.Fits) :
    (ControlFirst q.fields ∧ r.read.result = .ok (some (reread q)) ∧ Facing r.read.state rs) ∨
      (¬ControlFirst q.fields ∧ ∃ e, r.read.result = .error e) := by
  obtain ⟨s, stage, t, l, hread, hleads, ht⟩ := h
  rw [List.flatMap_cons, List.append_assoc] at ht
  rcases readEvents_recordMarks ht hq with ⟨hfirst, hresult, hstate⟩ | ⟨hlate, e, herror⟩
  · rw [← hleads.result_eq] at hresult
    rw [← hleads.state_eq] at hstate
    refine .inl ⟨hfirst, ?_⟩
    rw [hread, Reader.readFrom]
    split
    · next heq => simp [heq] at hresult
    · next heq => simp [heq] at hresult
    · next record lone rest notices heq =>
      rw [heq] at hresult hstate
      cases hresult
      exact ⟨rfl, rest, .member, rest, _, rfl, Leads.refl rest .member, hstate⟩
  · rw [← hleads.result_eq] at herror
    refine .inr ⟨hlate, e, ?_⟩
    rw [hread, Reader.readFrom]
    split
    · next heq =>
      rw [heq] at herror
      exact congrArg Except.error (Except.error.inj herror)
    · next heq => simp [heq] at herror
    · next heq => simp [heq] at herror

/-- **A document is read to its end exactly if the control fields of each record come first.** -/
theorem readAll_facing (h : Facing r rs) (hrs : ∀ q ∈ rs, q.leader.Fits) (out : List Record) :
    (RecordReader.xml r).readAll.result = .ok out ↔
      (∀ q ∈ rs, ControlFirst q.fields) ∧ out = rs.map reread := by
  induction rs generalizing r out with
  | nil =>
    have hread : (RecordReader.xml r).read.result = .ok none := read_nil h
    rw [RecordReader.readAll_of_none hread]
    simp [eq_comm]
  | cons q rs ih =>
    obtain ⟨hq, hothers⟩ := List.forall_mem_cons.1 hrs
    rw [List.forall_mem_cons, List.map_cons]
    rcases read_cons h hq with ⟨hfirst, hresult, hstate⟩ | ⟨hlate, e, herror⟩
    · have hread : (RecordReader.xml r).read.result = .ok (some (reread q)) := hresult
      have hrest := ih hstate hothers
      rw [RecordReader.readAll_of_record hread]
      change Except.map _ (RecordReader.xml r.read.state).readAll.result = _ ↔ _
      cases hlater : (RecordReader.xml r.read.state).readAll.result with
      | error e =>
        simp only [hlater] at hrest
        simp only [Except.map, hfirst, true_and]
        constructor
        · rintro ⟨⟩
        · rintro ⟨hall, _⟩
          cases (hrest _).2 ⟨hall, rfl⟩
      | ok later =>
        obtain ⟨hall, rfl⟩ := (hrest later).1 hlater
        simp only [Except.map, Except.ok.injEq, hfirst, true_and]
        exact ⟨fun heq => ⟨fun q hq => hall q hq, heq.symm⟩, fun heq => heq.2.symm⟩
    · have hread : (RecordReader.xml r).read.result = .error e := herror
      rw [RecordReader.readAll_of_error hread]
      constructor
      · rintro ⟨⟩
      · rintro ⟨⟨hfirst, _⟩, _⟩
        exact absurd hfirst hlate

end

/-- What is read of a session is a matter of the records that were written. -/
theorem readAll_session_iff {σ : Type} [ByteSink σ] (k : Reliable σ) {sink : σ} (hsink : k.sound sink)
    (calls : List Call) {rs : List Record} (hcalls : calls.filterMap Call.record? = rs)
    (hrs : ∀ r ∈ rs, r.leader.Fits) (closing : Closing) :
    let written := (Writer.ofSink sink).session calls closing
    written.1 = .ok () ∧ ∃ bs, k.taken written.2 = k.taken sink ++ bs ∧ ∀ supply seekFailure out,
      (RecordReader.xml (.ofInput ⟨bs, supply, none, seekFailure⟩)).readAll.result = .ok out ↔
        (∀ r ∈ rs, ControlFirst r.fields) ∧ out = rs.map reread := by
  obtain ⟨last, hsession, l, hl, htaken⟩ := Writer.session_spec hsink calls closing
  rw [hsession]
  rw [hcalls] at htaken
  refine ⟨rfl, _, htaken, fun supply seekFailure out => ?_⟩
  exact readAll_facing (facing_ofInput hl supply seekFailure rs) hrs out

end Slim

end Marc21
