import Marc21.Xml.Reference
import Marc21.Proofs.Text.Utf8

/-!
Escaped text is read back (`read_escape`), and it holds none of the characters that end a text or an
attribute value (`escape_clean`).
-/

namespace Marc21.Xml.Reference

/-- The characters that are written as references. -/
def special : List Char := ['<', '>', '&', '\'', '"']

theorem escapeChar_of_not_mem {c : Char} (h : c ∉ special) : escapeChar c = [c] := by
  have hfind : named.find? (·.2 == c) = none := by
    simp only [special, List.mem_cons, List.not_mem_nil, or_false, not_or] at h
    obtain ⟨h1, h2, h3, h4, h5⟩ := h
    simp [named, Ne.symm h1, Ne.symm h2, Ne.symm h3, Ne.symm h4, Ne.symm h5]
  rw [escapeChar, hfind]

/-- A special character becomes an ampersand, a name that resolves to it, and a semicolon. -/
theorem escapeChar_of_mem {c : Char} (h : c ∈ special) : ∃ name : List Char,
    escapeChar c = '&' :: name ++ [';'] ∧ (∀ d ∈ name, d ∉ special ∧ d ≠ ';') ∧
      ∀ start stop, resolve start stop name = .ok c := by
  simp only [special, List.mem_cons, List.not_mem_nil, or_false] at h
  rcases h with rfl | rfl | rfl | rfl | rfl
  · exact ⟨['l', 't'], by decide, by simp [special], fun _ _ => rfl⟩
  · exact ⟨['g', 't'], by decide, by simp [special], fun _ _ => rfl⟩
  · exact ⟨['a', 'm', 'p'], by decide, by simp [special], fun _ _ => rfl⟩
  · exact ⟨['a', 'p', 'o', 's'], by decide, by simp [special], fun _ _ => rfl⟩
  · exact ⟨['q', 'u', 'o', 't'], by decide, by simp [special], fun _ _ => rfl⟩

/-! ## Reading -/

variable (total : Nat)

/-- The name of a reference is taken in whole. -/
private theorem unescapeFrom_name {name : List Char} (hname : ∀ d ∈ name, d ∉ special ∧ d ≠ ';')
    (rest : List Char) (index start : Nat) (before out : List Char) :
    ∃ index', unescapeFrom total (name ++ rest) index (some (start, before)) out =
      unescapeFrom total rest index' (some (start, name.reverse ++ before)) out := by
  induction name generalizing index before with
  | nil => exact ⟨index, rfl⟩
  | cons d name ih =>
    obtain ⟨⟨hspecial, hsemicolon⟩, hname⟩ := List.forall_mem_cons.1 hname
    have hamp : d ≠ '&' := by
      rintro rfl
      exact hspecial (by decide)
    obtain ⟨index', h⟩ := ih hname (index + d.utf8Size) (d :: before)
    refine ⟨index', ?_⟩
    rw [List.cons_append, unescapeFrom, if_neg hamp, if_neg hsemicolon, h, List.reverse_cons,
      List.append_assoc]
    rfl

private theorem unescapeFrom_escapeChar (c : Char) (rest : List Char) (index : Nat)
    (out : List Char) : ∃ index', unescapeFrom total (escapeChar c ++ rest) index none out =
      unescapeFrom total rest index' none (c :: out) := by
  by_cases h : c ∈ special
  · obtain ⟨name, hname, hclean, hresolve⟩ := escapeChar_of_mem h
    obtain ⟨index', hread⟩ :=
      unescapeFrom_name total hclean (';' :: rest) (index + '&'.utf8Size) index [] out
    refine ⟨index' + ';'.utf8Size, ?_⟩
    rw [hname, List.append_assoc, List.cons_append, unescapeFrom, if_pos rfl]
    rw [List.singleton_append, hread, List.append_nil, unescapeFrom, if_neg (by decide), if_pos rfl,
      List.reverse_reverse, hresolve]
  · have hamp : c ≠ '&' := by
      rintro rfl
      exact h (by decide)
    refine ⟨index + c.utf8Size, ?_⟩
    rw [escapeChar_of_not_mem h, List.singleton_append, unescapeFrom, if_neg hamp]

private theorem unescapeFrom_flatMap (cs : List Char) (index : Nat) (out : List Char) :
    unescapeFrom total (cs.flatMap escapeChar) index none out = .ok (out.reverse ++ cs) := by
  induction cs generalizing index out with
  | nil => rw [List.flatMap_nil, unescapeFrom, List.append_nil]
  | cons c cs ih =>
    obtain ⟨index', h⟩ := unescapeFrom_escapeChar total c (cs.flatMap escapeChar) index out
    rw [List.flatMap_cons, h, ih, List.reverse_cons, List.append_assoc]
    rfl

theorem unescape_escape (s : String) : unescape (escape s) = .ok s := by
  rw [unescape, escape, String.toList_ofList, unescapeFrom_flatMap]
  simp [Except.map]

/-- **Escaped text is read back.** -/
theorem read_escape (s : String) : read (Utf8.encode (escape s)) = .ok s := by
  rw [read, Utf8.decode_encode]
  exact unescape_escape s

theorem encode_escape_ne_nil {s : String} (h : s ≠ "") : Utf8.encode (escape s) ≠ [] := by
  intro hnil
  have hread := read_escape s
  rw [hnil] at hread
  cases hread
  exact h rfl

/-! ## What escaped text does not hold -/

theorem escape_clean {s : String} {c : Char} (h : c ∈ (escape s).toList) :
    c = '&' ∨ c ∉ special := by
  rw [escape, String.toList_ofList, List.mem_flatMap] at h
  obtain ⟨d, _, h⟩ := h
  by_cases hd : d ∈ special
  · obtain ⟨name, hname, hclean, _⟩ := escapeChar_of_mem hd
    rw [hname, List.mem_append, List.mem_cons, List.mem_singleton] at h
    rcases h with (rfl | h) | rfl
    · exact Or.inl rfl
    · exact Or.inr (hclean c h).1
    · exact Or.inr (by decide)
  · rw [escapeChar_of_not_mem hd, List.mem_singleton] at h
    exact Or.inr (h ▸ hd)

/-- A special character other than the ampersand does not occur as a byte. -/
theorem not_mem_encode_escape (s : String) {b : UInt8} (hb : b.toNat < 0x80)
    (hspecial : Char.ofNat b.toNat ∈ special) (hamp : Char.ofNat b.toNat ≠ '&') :
    b ∉ Utf8.encode (escape s) := by
  rw [Utf8.mem_encode_iff hb]
  intro hmem
  rcases escape_clean hmem with h | h
  · exact hamp h
  · exact h hspecial

theorem escape_eq_self {s : String} (h : ∀ c ∈ s.toList, c ∉ special) : escape s = s := by
  have hflat {cs : List Char} (hcs : ∀ c ∈ cs, c ∉ special) : cs.flatMap escapeChar = cs := by
    induction cs with
    | nil => rfl
    | cons c cs ih =>
      obtain ⟨hc, hcs⟩ := List.forall_mem_cons.1 hcs
      rw [List.flatMap_cons, escapeChar_of_not_mem hc, ih hcs]
      rfl
  rw [escape, hflat h, String.ofList_toList]

end Marc21.Xml.Reference
