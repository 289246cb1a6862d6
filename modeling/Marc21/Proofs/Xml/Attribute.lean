import Mathlib.Data.List.TakeWhile
import Marc21.Xml.Attribute
import Marc21.Xml.Mark
import Marc21.Proofs.Xml.Reference

/-!
The attributes of a written tag are read back (`ofTag_written`), if their keys are plain names and differ. If
the tag breaks off behind a slash, a quote is open (`ofTag_slash`).
-/

namespace Marc21.Xml

/-- ASCII letters and digits. -/
def isPlain (b : UInt8) : Bool :=
  isDigit b || (0x41 ≤ b && b ≤ 0x5A) || (0x61 ≤ b && b ≤ 0x7A)

/-- A name of letters and digits alone. -/
def PlainName (name : String) : Prop :=
  Utf8.encode name ≠ [] ∧ ∀ b ∈ Utf8.encode name, isPlain b = true

instance (name : String) : Decidable (PlainName name) :=
  decidable_of_iff (Utf8.encode name ≠ [] ∧ (Utf8.encode name).all isPlain = true)
    (and_congr_right fun _ => List.all_eq_true)

theorem ne_of_isPlain {b c : UInt8} (hb : isPlain b = true) (hc : isPlain c = false) : b ≠ c := by
  rintro rfl
  rw [hb] at hc
  cases hc

theorem not_isSpace_of_isPlain {b : UInt8} (hb : isPlain b = true) : isSpace b = false := by
  have h1 : b ≠ 0x20 := ne_of_isPlain hb rfl
  have h2 : b ≠ 0x09 := ne_of_isPlain hb rfl
  have h3 : b ≠ 0x0D := ne_of_isPlain hb rfl
  have h4 : b ≠ 0x0A := ne_of_isPlain hb rfl
  simp [isSpace, h1, h2, h3, h4]

namespace Attribute

/-- An attribute as it is written, with the blank before it. -/
def written (a : String × String) : Bytes :=
  0x20 :: (Utf8.encode a.1 ++ 0x3D :: 0x22 :: (Utf8.encode (Reference.escape a.2) ++ [0x22]))

theorem quote_not_mem_escape (s : String) : 0x22 ∉ Utf8.encode (Reference.escape s) :=
  Reference.not_mem_encode_escape s (by decide) (by decide) (by decide)

/-! ## One attribute -/

namespace Cursor

theorem skipSpace_of_not {c : Cursor} {b : UInt8} {rest : Bytes} (h : c.rest = b :: rest)
    (hb : isSpace b = false) : c.skipSpace = c := by
  obtain ⟨position, bytes⟩ := c
  obtain rfl : bytes = b :: rest := h
  simp [skipSpace, span, hb]

theorem skipSpace_blank {position : Nat} {b : UInt8} {rest : Bytes} (hb : isSpace b = false) :
    skipSpace ⟨position, 0x20 :: b :: rest⟩ = ⟨position + 1, b :: rest⟩ := by
  have hblank : isSpace 0x20 = true := rfl
  simp [skipSpace, span, hb, hblank]

/-- Passing over bytes of a class up to the first that is not of it. -/
theorem span_append {p : UInt8 → Bool} (position : Nat) {passed : Bytes} {b : UInt8} (rest : Bytes)
    (hpassed : ∀ c ∈ passed, p c = true) (hb : p b = false) :
    span p ⟨position, passed ++ b :: rest⟩ = (passed, ⟨position + passed.length, b :: rest⟩) := by
  have htake : (passed ++ b :: rest).takeWhile p = passed := by
    rw [List.takeWhile_append_of_pos hpassed, List.takeWhile_cons_of_neg (by simp [hb]),
      List.append_nil]
  have hdrop : (passed ++ b :: rest).dropWhile p = b :: rest := by
    rw [List.dropWhile_append_of_pos hpassed, List.dropWhile_cons_of_neg (by simp [hb])]
  simp only [span, htake, hdrop]

end Cursor

theorem key_spec (position : Nat) (first : UInt8) {more : Bytes} (rest : Bytes)
    (hmore : ∀ b ∈ more, isPlain b = true) : ∃ position',
      key first ⟨position, more ++ 0x3D :: rest⟩ = .ok (first :: more, ⟨position', rest⟩) := by
  have hname : ∀ b ∈ more, (b != equals && !isSpace b) = true := by
    intro b hb
    have hequals : b ≠ equals := ne_of_isPlain (hmore b hb) rfl
    simp [hequals, not_isSpace_of_isPlain (hmore b hb)]
  have hspan := Cursor.span_append (b := 0x3D) position rest hname rfl
  have hskip := Cursor.skipSpace_of_not (c := ⟨position + more.length, 0x3D :: rest⟩) rfl rfl
  refine ⟨position + more.length + 1, ?_⟩
  simp only [key, hspan, hskip]
  rfl

theorem value_spec (position : Nat) {text : Bytes} (rest : Bytes) (htext : 0x22 ∉ text) :
    ∃ position', value ⟨position, 0x22 :: (text ++ 0x22 :: rest)⟩ =
      .ok (text, ⟨position', rest⟩) := by
  have hquote : ∀ b ∈ text, (b != 0x22) = true := fun b hb =>
    bne_iff_ne.2 fun heq => htext (heq ▸ hb)
  have hspan := Cursor.span_append (b := 0x22) (position + 1) rest hquote rfl
  have hskip := Cursor.skipSpace_of_not
    (c := ⟨position, 0x22 :: (text ++ 0x22 :: rest)⟩) rfl rfl
  refine ⟨position + 1 + text.length + 1, ?_⟩
  simp only [value, hskip, true_or, if_true, hspan]

/-- One round of reading attributes. -/
private theorem collect_step {start d e : Cursor} {position : Nat} {first : UInt8} {rest k v : Bytes}
    {text : String} {keys : List (Nat × Bytes)} (done : Attributes)
    (hskip : start.skipSpace = ⟨position, first :: rest⟩)
    (hkey : key first ⟨position + 1, rest⟩ = .ok (k, d)) (hnew : keys.find? (·.2 == k) = none)
    (hvalue : value d = .ok (v, e)) (hread : Reference.read v = .ok text) :
    collect start keys done =
      collect e (keys ++ [(position, k)]) (done.insert (Utf8.decodeLossy k) text) := by
  rw [collect]
  split
  · next hrest =>
    rw [hskip] at hrest
    cases hrest
  · next hrest =>
    rw [hskip] at hrest
    cases hrest
    split
    · next h =>
      rw [hskip, hkey] at h
      cases h
    · next h =>
      rw [hskip, hkey] at h
      cases h
      rw [hnew]
      dsimp only
      split
      · next h =>
        rw [hvalue] at h
        cases h
      · next h =>
        rw [hvalue] at h
        cases h
        rw [hread, hskip]

/-- A written attribute is taken in and the others are left. -/
theorem collect_written {a : String × String} (ha : PlainName a.1) {keys : List (Nat × Bytes)}
    (hkeys : ∀ k ∈ keys, k.2 ≠ Utf8.encode a.1) (position : Nat) (rest : Bytes) (done : Attributes) :
    ∃ position', collect ⟨position, written a ++ rest⟩ keys done =
      collect ⟨position', rest⟩ (keys ++ [(position + 1, Utf8.encode a.1)])
        (done.insert a.1 a.2) := by
  obtain ⟨hne, hplain⟩ := ha
  obtain ⟨first, more, hname⟩ := List.exists_cons_of_ne_nil hne
  rw [hname, List.forall_mem_cons] at hplain
  have hbytes : written a ++ rest = 0x20 :: first :: (more ++ 0x3D :: (0x22 ::
      (Utf8.encode (Reference.escape a.2) ++ 0x22 :: rest))) := by
    simp only [written, hname, List.cons_append, List.append_assoc, List.nil_append]
  obtain ⟨behindKey, hkey⟩ := key_spec (position + 1 + 1) first
    (0x22 :: (Utf8.encode (Reference.escape a.2) ++ 0x22 :: rest)) hplain.2
  obtain ⟨behindValue, hvalue⟩ := value_spec behindKey rest (quote_not_mem_escape a.2)
  have hskip : Cursor.skipSpace ⟨position, written a ++ rest⟩ = ⟨position + 1, first :: (more ++
      0x3D :: (0x22 :: (Utf8.encode (Reference.escape a.2) ++ 0x22 :: rest)))⟩ := by
    rw [hbytes]
    exact Cursor.skipSpace_blank (not_isSpace_of_isPlain hplain.1)
  have hnew : keys.find? (·.2 == first :: more) = none := by
    rw [List.find?_eq_none]
    intro k hk
    have hdiffer := hkeys k hk
    rw [hname] at hdiffer
    simpa using hdiffer
  refine ⟨behindValue, ?_⟩
  rw [collect_step done hskip hkey hnew hvalue (Reference.read_escape a.2), ← hname,
    Utf8.decodeLossy_encode]

theorem insert_of_not_mem {done : Attributes} {key value : String}
    (h : key ∉ done.map Prod.fst) : done.insert key value = done ++ [(key, value)] := by
  have hany : done.any (·.1 == key) = false := by
    rw [List.any_eq_false]
    intro a ha heq
    exact h (eq_of_beq heq ▸ List.mem_map_of_mem ha)
  rw [Attributes.insert, if_neg (by simp [hany])]

/-- Written attributes are taken in up to what stands behind them. -/
theorem collect_flatMap {as : Attributes} (done : Attributes) (keys : List (Nat × Bytes))
    (hplain : ∀ a ∈ as, PlainName a.1) (hnodup : ((done ++ as).map Prod.fst).Nodup)
    (hkeys : keys.map Prod.snd = done.map fun a => Utf8.encode a.1) (position : Nat) (rest : Bytes) :
    ∃ position' keys', collect ⟨position, as.flatMap written ++ rest⟩ keys done =
      collect ⟨position', rest⟩ keys' (done ++ as) := by
  induction as generalizing done keys position with
  | nil => exact ⟨position, keys, by rw [List.append_nil]; rfl⟩
  | cons a as ih =>
    obtain ⟨ha, hplain⟩ := List.forall_mem_cons.1 hplain
    have hnew : a.1 ∉ done.map Prod.fst := by
      rw [List.map_append, List.nodup_append] at hnodup
      intro hmem
      exact hnodup.2.2 _ hmem _ List.mem_cons_self rfl
    have hdiffer : ∀ k ∈ keys, k.2 ≠ Utf8.encode a.1 := by
      intro k hk heq
      have hmem : k.2 ∈ done.map fun a => Utf8.encode a.1 := hkeys ▸ List.mem_map_of_mem hk
      obtain ⟨b, hb, hbk⟩ := List.mem_map.1 hmem
      have : b.1 = a.1 := by
        rw [← Utf8.decodeLossy_encode b.1, hbk, heq, Utf8.decodeLossy_encode]
      exact hnew (this ▸ List.mem_map_of_mem hb)
    obtain ⟨behind, hcollect⟩ := collect_written ha hdiffer position (as.flatMap written ++ rest) done
    rw [List.flatMap_cons, List.append_assoc, hcollect, insert_of_not_mem hnew, List.append_cons done a as]
    apply ih _ _ hplain
    · rw [← List.append_cons]
      exact hnodup
    · rw [List.map_append, hkeys, List.map_append]
      rfl

/-! ## A whole tag -/

theorem encode_attributeText (as : Attributes) :
    Utf8.encode (Mark.attributeText as) = as.flatMap written := by
  rw [Mark.attributeText]
  induction as with
  | nil => rfl
  | cons a as ih =>
    have hquote : Utf8.encode "\"" = [0x22] := by decide
    have hopen : Utf8.encode "=\"" = [0x3D, 0x22] := by decide
    have hblank : Utf8.encode " " = [0x20] := by decide
    rw [List.map_cons, String.join_cons, Utf8.encode_append, ih, List.flatMap_cons]
    simp only [Utf8.encode_append, hquote, hopen, hblank, written, List.append_assoc, List.cons_append,
      List.nil_append]

/-- **The attributes of a written tag are read back.** -/
theorem ofTag_written {name : String} {as : Attributes} (hplain : ∀ a ∈ as, PlainName a.1)
    (hnodup : (as.map Prod.fst).Nodup) :
    ofTag (Utf8.encode (name ++ Mark.attributeText as)) (Utf8.encode name).length = .ok as := by
  obtain ⟨position, keys, hcollect⟩ :=
    collect_flatMap [] [] hplain hnodup rfl (Utf8.encode name).length []
  rw [List.append_nil] at hcollect
  rw [ofTag, Utf8.encode_append, List.drop_left' rfl, encode_attributeText, hcollect, collect]
  rfl

/-! ## A tag that breaks off -/

/-- A prefix of two lists ends within the first or goes on in the second. -/
theorem prefix_append_cases {α : Type} {p xs ys : List α} (h : p <+: xs ++ ys) :
    p <+: xs ∨ ∃ q, xs ++ q = p ∧ q <+: ys := by
  rcases List.prefix_or_prefix_of_prefix h (List.prefix_append xs ys) with hp | ⟨q, rfl⟩
  · exact .inl hp
  · exact .inr ⟨q, rfl, (List.prefix_append_right_inj xs).1 h⟩

private theorem getLast?_append_right {xs ys : Bytes} (h : ys ≠ []) :
    (xs ++ ys).getLast? = ys.getLast? := by
  rw [List.getLast?_append, List.getLast?_eq_some_getLast h]
  rfl

private theorem value_open (position : Nat) {text : Bytes} (htext : 0x22 ∉ text) :
    value ⟨position, 0x22 :: text⟩ = .error (.quoteMissing (position + 1 + text.length) 0x22) := by
  have hquote : ∀ b ∈ text, (b != 0x22) = true := fun b hb =>
    bne_iff_ne.2 fun heq => htext (heq ▸ hb)
  have hskip := Cursor.skipSpace_of_not (c := ⟨position, 0x22 :: text⟩) rfl rfl
  simp only [value, hskip, true_or, if_true, Cursor.span, List.takeWhile_eq_self_iff.2 hquote,
    List.dropWhile_eq_nil_iff.2 hquote]

/-- An attribute whose quote is open. -/
private theorem collect_open {key : String} (hkey : PlainName key) {text : Bytes} (htext : 0x22 ∉ text)
    (position : Nat) (keys : List (Nat × Bytes)) (done : Attributes) : ∃ fault,
      collect ⟨position, 0x20 :: (Utf8.encode key ++ 0x3D :: 0x22 :: text)⟩ keys done = .error fault := by
  obtain ⟨hne, hplain⟩ := hkey
  obtain ⟨first, more, hname⟩ := List.exists_cons_of_ne_nil hne
  rw [hname, List.forall_mem_cons] at hplain
  obtain ⟨behindKey, hread⟩ := key_spec (position + 1 + 1) first (0x22 :: text) hplain.2
  have hskip : Cursor.skipSpace ⟨position, 0x20 :: (Utf8.encode key ++ 0x3D :: 0x22 :: text)⟩ =
      ⟨position + 1, first :: (more ++ 0x3D :: 0x22 :: text)⟩ := by
    rw [hname]
    exact Cursor.skipSpace_blank (not_isSpace_of_isPlain hplain.1)
  rw [collect]
  split
  · next hrest =>
    rw [hskip] at hrest
    cases hrest
  · next hrest =>
    rw [hskip] at hrest
    cases hrest
    split
    · exact ⟨_, rfl⟩
    · next h =>
      rw [hskip, hread] at h
      cases h
      split
      · exact ⟨_, rfl⟩
      · split
        · exact ⟨_, rfl⟩
        · next h =>
          rw [value_open behindKey htext] at h
          cases h

/-- Written attributes that break off behind a slash break off within a value. -/
private theorem exists_open {as : Attributes} (hplain : ∀ a ∈ as, PlainName a.1) {q : Bytes}
    (hq : q <+: as.flatMap written) (hlast : q.getLast? = some 0x2F) :
    ∃ before a text, before <+: as ∧ a ∈ as ∧ text ≠ [] ∧ 0x22 ∉ text ∧
      q = before.flatMap written ++ 0x20 :: (Utf8.encode a.1 ++ 0x3D :: 0x22 :: text) := by
  induction as generalizing q with
  | nil =>
    rw [List.prefix_nil.1 hq] at hlast
    cases hlast
  | cons a as ih =>
    obtain ⟨ha, hplain⟩ := List.forall_mem_cons.1 hplain
    have hwritten : written a = 0x20 :: (Utf8.encode a.1 ++ [0x3D, 0x22]) ++
        (Utf8.encode (Reference.escape a.2) ++ [0x22]) := by
      simp [written]
    rw [List.flatMap_cons] at hq
    rcases prefix_append_cases hq with hq | ⟨later, rfl, hlater⟩
    · rw [hwritten] at hq
      rcases prefix_append_cases hq with hq | ⟨text, rfl, htext⟩
      · -- No slash comes before the quote.
        have hslash : 0x2F ∉ 0x20 :: (Utf8.encode a.1 ++ [0x3D, 0x22]) := by
          simpa using fun hmem => ne_of_isPlain (ha.2 _ hmem) rfl rfl
        exact absurd (hq.subset (List.mem_of_getLast? hlast)) hslash
      · have hne : text ≠ [] := by
          rintro rfl
          rw [List.append_nil, ← List.cons_append, List.append_cons, List.getLast?_concat] at hlast
          cases hlast
        rw [getLast?_append_right hne] at hlast
        rcases List.prefix_concat_iff.1 htext with hend | htext
        · rw [hend, List.getLast?_concat] at hlast
          cases hlast
        · refine ⟨[], a, text, List.nil_prefix, List.mem_cons_self, hne,
            fun hmem => quote_not_mem_escape a.2 (htext.subset hmem), ?_⟩
          simp
    · by_cases hnil : later = []
      · subst hnil
        rw [hwritten, List.append_nil, ← List.append_assoc, List.getLast?_concat] at hlast
        cases hlast
      · rw [getLast?_append_right hnil] at hlast
        obtain ⟨before, b, text, hbefore, hb, hne, htext, rfl⟩ := ih hplain hlater hlast
        refine ⟨a :: before, b, text, List.cons_prefix_cons.2 ⟨rfl, hbefore⟩, List.mem_cons_of_mem _ hb,
          hne, htext, ?_⟩
        rw [List.flatMap_cons, List.append_assoc]

/-- **A tag that breaks off behind a slash has an open quote**, so it does not count as an element without
content. -/
theorem ofTag_slash {name : String} {as : Attributes} (hname : PlainName name)
    (hplain : ∀ a ∈ as, PlainName a.1) (hnodup : (as.map Prod.fst).Nodup) {q : Bytes}
    (hq : q <+: Utf8.encode (name ++ Mark.attributeText as)) (hlast : q.getLast? = some 0x2F) :
    ∃ fault, ofTag q.dropLast (Utf8.encode name).length = .error fault := by
  rw [Utf8.encode_append, encode_attributeText] at hq
  rcases prefix_append_cases hq with hq | ⟨later, rfl, hlater⟩
  · exact absurd rfl (ne_of_isPlain (hname.2 _ (hq.subset (List.mem_of_getLast? hlast))) rfl)
  · have hnil : later ≠ [] := by
      rintro rfl
      rw [List.append_nil] at hlast
      exact absurd rfl (ne_of_isPlain (hname.2 _ (List.mem_of_getLast? hlast)) rfl)
    rw [getLast?_append_right hnil] at hlast
    obtain ⟨before, a, text, hbefore, ha, hne, htext, rfl⟩ := exists_open hplain hlater hlast
    obtain ⟨position, keys, hcollect⟩ := collect_flatMap [] []
      (fun b hb => hplain b (hbefore.subset hb)) (hnodup.sublist (hbefore.sublist.map Prod.fst)) rfl
      (Utf8.encode name).length (0x20 :: (Utf8.encode a.1 ++ 0x3D :: 0x22 :: text.dropLast))
    obtain ⟨fault, hfault⟩ := collect_open (hplain a ha)
      (fun hmem => htext (List.dropLast_subset text hmem)) position keys ([] ++ before)
    refine ⟨fault, ?_⟩
    have hsplit (bs : Bytes) : Utf8.encode name ++ (before.flatMap written ++
        0x20 :: (Utf8.encode a.1 ++ 0x3D :: 0x22 :: bs)) =
        Utf8.encode name ++ (before.flatMap written ++ 0x20 :: (Utf8.encode a.1 ++ [0x3D, 0x22])) ++ bs := by
      simp
    rw [ofTag, hsplit, List.dropLast_append_of_ne_nil hne, ← hsplit, List.drop_left' rfl, hcollect, hfault]

end Attribute

end Marc21.Xml
