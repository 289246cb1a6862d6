import Marc21.Stream.Supply
import Marc21.Xml.Attribute

/-!
The markup of an XML document: tags, text, character sections, and what is passed over (comments,
instructions and declarations). A scanner gives one token at a time and counts lines as it goes. After
a fault, as at the end, it gives nothing more.
-/

namespace Marc21.Xml

inductive Token where
  /-- A start tag without its brackets, and the length of the name in it. -/
  | start (content : Bytes) (nameLength : Nat)
  | stop (name : Bytes)
  | text (content : Bytes)
  | verbatim (content : Bytes)
  | passedOver
  | endOfInput
  deriving DecidableEq, Repr

/-- What the scanner is about to read. -/
inductive Phase where
  | document
  | text
  | tag
  | impliedStop
  | ended
  deriving DecidableEq, Repr

/-- `rest` is what has not been read yet, and `supply` tells how much of it can be seen. Where it ends the
document is over, or cannot be read on if there is a reason in `broken`. `names` are the open elements,
innermost first. -/
structure Scanner where
  rest : Bytes
  supply : Supply
  broken : Option String
  line : Nat
  phase : Phase
  names : List Bytes
  deriving DecidableEq, Repr

namespace Scanner

def ofBytes (bs : Bytes) (supply : Supply) (broken : Option String) : Scanner :=
  ⟨bs, supply, broken, 1, .document, []⟩

def newlines (bs : Bytes) : Nat := bs.count 0x0A

/-- Goes past `read`, which leaves `rest`. -/
def advance (s : Scanner) (read rest : Bytes) : Scanner :=
  { s with rest, supply := s.supply.pass read.length, line := s.line + newlines read }

/-- What a search finds that comes to the end of what there is. -/
def atEnd (s : Scanner) {α : Type} (found : Except Fault α) : Except Fault α :=
  match s.broken with
  | some reason => .error (.unreadable reason)
  | none => found

/-- What precedes a byte, and what follows it if it is there. -/
def cut (b : UInt8) (bs : Bytes) : Bytes × Option Bytes :=
  (bs.takeWhile (· != b), match bs.dropWhile (· != b) with
    | _ :: after => some after
    | [] => none)

/-- Reads up to a byte and past it. At the end everything is read, if there is anything. -/
def readUntil (s : Scanner) (b : UInt8) : Except Fault (Option Bytes) × Scanner :=
  match cut b s.rest with
  | (before, some after) => (.ok (some before), s.advance (b :: before) after)
  | (before, none) =>
    (s.atEnd (.ok (if before = [] then none else some before)), s.advance before [])

/-- Looks for a `>` at which `ends` holds of the state that `step` has come to. Gives what precedes it
and what follows it. `seen` is what was passed, in reverse. -/
def findEnd {σ : Type} (step : σ → UInt8 → σ) (ends : σ → Bool) :
    σ → Bytes → Bytes → Option (Bytes × Bytes)
  | _, _, [] => none
  | state, seen, b :: bs =>
    if b = 0x3E ∧ ends state then some (seen.reverse, bs)
    else findEnd step ends (step state b) (b :: seen) bs

theorem findEnd_length {σ : Type} {step : σ → UInt8 → σ} {ends : σ → Bool} {state : σ}
    {seen bs content rest : Bytes} (h : findEnd step ends state seen bs = some (content, rest)) :
    rest.length < bs.length := by
  induction bs generalizing state seen with
  | nil => cases h
  | cons b bs ih =>
    unfold findEnd at h
    split at h
    · cases h
      exact Nat.lt_succ_self _
    · exact Nat.lt_succ_of_lt (ih h)

/-- How far a comment or section has come, and its last two bytes. -/
structure Tail where
  length : Nat
  beforeLast : UInt8
  last : UInt8

def Tail.step (t : Tail) (b : UInt8) : Tail := ⟨t.length + 1, t.last, b⟩

/-- Angle brackets opened and closed in what can be seen at a time, of which `left` bytes are ahead. -/
structure Balance where
  opened : Nat
  closed : Nat
  left : Nat

/-- What comes into view next, `size` bytes of it, is balanced by itself. -/
def Balance.step (size : Nat) (t : Balance) (b : UInt8) : Balance :=
  if t.left ≤ 1 then ⟨0, 0, size⟩
  else if b = 0x3C then ⟨t.opened + 1, t.closed, t.left - 1⟩
  else if b = 0x3E then ⟨t.opened, t.closed + 1, t.left - 1⟩
  else { t with left := t.left - 1 }

/-- The quote that is open within a tag. -/
def quoteStep : Option UInt8 → UInt8 → Option UInt8
  | none, b => if b = 0x22 ∨ b = 0x27 then some b else none
  | some q, b => if b = q then none else some q

/-- The end of a declaration whose text after the `!` is given. A document type is balanced in each part
of it that can be seen at a time. -/
def declarationEnd (what : Construct) (supply : Supply) (bs : Bytes) : Option (Bytes × Bytes) :=
  match what with
  | .comment =>
    findEnd Tail.step (fun t => 4 ≤ t.length && t.beforeLast == 0x2D && t.last == 0x2D) ⟨0, 0, 0⟩
      [] bs
  | .cdata =>
    findEnd Tail.step (fun t => t.beforeLast == 0x5D && t.last == 0x5D) ⟨0, 0, 0⟩ [] bs
  | _ =>
    findEnd (Balance.step supply.size) (fun t => t.opened == t.closed) ⟨0, 0, supply.visible⟩ [] bs

/-- Which declaration the byte after `<!` opens. -/
def declarationKind? (b : UInt8) : Option Construct :=
  if b = 0x5B then some .cdata
  else if b = 0x2D then some .comment
  else if b = 0x44 ∨ b = 0x64 then some .doctype
  else none

def lowerByte (b : UInt8) : UInt8 := if 0x41 ≤ b ∧ b ≤ 0x5A then b + 0x20 else b

def asciiBytes (s : String) : Bytes := s.toList.map fun c => c.toNat.toUInt8

def startsWith (word : String) (bs : Bytes) : Bool :=
  (asciiBytes word).isPrefixOf (bs.map lowerByte)

/-- The token of a declaration whose text after the `!` is given. -/
def declarationToken (what : Construct) (content : Bytes) : Except Fault Token :=
  match what with
  | .cdata =>
    if startsWith "[cdata[" (content.take 7) then
      .ok (.verbatim ((content.drop 7).take (content.length - 9)))
    else .error (.unended .cdata)
  | .comment =>
    if startsWith "--" (content.take 2) then .ok .passedOver else .error (.unended .comment)
  | _ =>
    if !startsWith "doctype" (content.take 7) then .error (.unended .doctype)
    else if (content.drop 7).all isSpace then .error .emptyDoctype
    else .ok .passedOver

/-- Reads a declaration after its `<!`. -/
def readDeclaration (s : Scanner) : Except Fault Token × Scanner :=
  match s.rest with
  | [] => (s.atEnd (.error (.unended .declaration)), s)
  | b :: _ =>
    match declarationKind? b with
    | none => (.error (.unknownDeclaration b), s)
    | some what =>
      match declarationEnd what s.supply s.rest with
      | some (content, rest) => (declarationToken what content, s.advance (0x3E :: content) rest)
      | none => (s.atEnd (.error (.unended what)), s.advance s.rest [])

def localName (name : Bytes) : Bytes :=
  match cut 0x3A name with
  | (_, some after) => after
  | (_, none) => name

/-- The name in an end tag, without the white space that may follow it. -/
def trimName (name : Bytes) : Bytes :=
  if name.all isSpace then name else (name.reverse.dropWhile isSpace).reverse

/-- A name as a message shows it. One that cannot be decoded shows as nothing. -/
def shownName (name : Bytes) : String := (Utf8.decode name).toOption.getD ""

/-- The token of an end tag, which has to match the innermost open element. -/
def stopToken (s : Scanner) (content : Bytes) : Except Fault Token × Scanner :=
  let found := content.drop 1
  match s.names with
  | [] => (.error (.mismatchedEnd "" (shownName found)), s)
  | wanted :: names =>
    let name := trimName found
    (if name = wanted then .ok (.stop name)
      else .error (.mismatchedEnd (shownName wanted) (shownName name)), { s with names })

def instructionToken (content : Bytes) : Except Fault Token :=
  if 3 ≤ content.length ∧ content.getLast? = some 0x3F then .ok .passedOver
  else .error (.unended .instruction)

/-- The token of a start tag. One that ends in a slash stands for an end tag as well. -/
def startToken (s : Scanner) (content : Bytes) : Token × Scanner :=
  let nameLength := (content.takeWhile (!isSpace ·)).length
  if content.getLast? = some 0x2F then
    let nameLength := min nameLength (content.length - 1)
    (.start content.dropLast nameLength,
      { s with phase := .impliedStop, names := content.take nameLength :: s.names })
  else (.start content nameLength, { s with names := content.take nameLength :: s.names })

/-- Reads what stands after a `<`. -/
def readTag (s : Scanner) : Except Fault Token × Scanner :=
  let s := { s with phase := .text }
  match s.rest with
  | [] => (s.atEnd (.ok .endOfInput), s)
  | b :: rest =>
    if b = 0x21 then readDeclaration (s.advance [b] rest)
    else if b = 0x2F then
      match s.readUntil 0x3E with
      | (.ok content, s) => s.stopToken (content.getD [])
      | (.error fault, s) => (.error fault, s)
    else if b = 0x3F then
      match s.readUntil 0x3E with
      | (.ok content, s) => (instructionToken (content.getD []), s)
      | (.error fault, s) => (.error fault, s)
    else
      match findEnd quoteStep Option.isNone none [] s.rest with
      | some (content, after) =>
        let (token, s) := (s.advance (0x3E :: content) after).startToken content
        (.ok token, s)
      | none =>
        let (token, t) := (s.advance s.rest []).startToken s.rest
        (s.atEnd (.ok token), t)

/-- Reads text up to a `<`, or the tag after it if there is no text. -/
def readText (s : Scanner) : Except Fault Token × Scanner :=
  match s.rest with
  | 0x3C :: rest => readTag (s.advance [0x3C] rest)
  | _ =>
    match s.readUntil 0x3C with
    | (.ok (some content), s) => (.ok (.text content), { s with phase := .tag })
    | (.ok none, s) => (.ok .endOfInput, s)
    | (.error fault, s) => (.error fault, s)

/-- Leaves out a byte order mark that can be seen as a whole. -/
def skipMark (s : Scanner) : Scanner :=
  match s.rest with
  | 0xEF :: 0xBB :: 0xBF :: rest =>
    if 3 ≤ s.supply.visible then s.advance [0xEF, 0xBB, 0xBF] rest else s
  | _ => s

def readAny (s : Scanner) : Except Fault Token × Scanner :=
  match s.phase with
  | .document => readText { s.skipMark with phase := .text }
  | .text => readText s
  | .tag => readTag s
  | .impliedStop =>
    (.ok (.stop (s.names.headD [])), { s with phase := .text, names := s.names.tail })
  | .ended => (.ok .endOfInput, s)

/-- The next token. -/
def next (s : Scanner) : Except Fault Token × Scanner :=
  match readAny s with
  | (.ok .endOfInput, t) => (.ok .endOfInput, { t with rest := [], phase := .ended })
  | (.ok token, t) => (.ok token, t)
  | (.error fault, t) => (.error fault, { t with phase := .ended })

/-- A bound on the tokens that are left. -/
def weight (s : Scanner) : Nat :=
  2 * s.rest.length + if s.phase = .impliedStop then 1 else 0

theorem length_cut_le {b : UInt8} {bs before after : Bytes} (h : cut b bs = (before, some after)) :
    after.length < bs.length := by
  unfold cut at h
  obtain ⟨_, h⟩ := Prod.mk.inj h
  split at h
  · next c rest hd =>
    cases h
    have := (List.dropWhile_sublist (l := bs) (· != b)).length_le
    rw [hd] at this
    exact this
  · cases h

theorem readUntil_rest {s : Scanner} (b : UInt8) (h : s.rest ≠ []) :
    (s.readUntil b).2.rest.length < s.rest.length := by
  unfold readUntil
  split
  · next before after hc => exact length_cut_le hc
  · exact List.length_pos_iff.2 h

theorem readDeclaration_rest {s : Scanner} {token : Token} {t : Scanner}
    (h : s.readDeclaration = (.ok token, t)) : t.rest.length < s.rest.length := by
  unfold readDeclaration at h
  split at h
  · next hs =>
    obtain ⟨h, _⟩ := Prod.mk.inj h
    unfold atEnd at h
    split at h <;> cases h
  · split at h
    · cases h
    · split at h
      · next what _ content rest hd =>
        obtain ⟨_, rfl⟩ := Prod.mk.inj h
        unfold declarationEnd at hd
        split at hd <;> exact findEnd_length hd
      · obtain ⟨h, _⟩ := Prod.mk.inj h
        unfold atEnd at h
        split at h <;> cases h

@[simp] theorem stopToken_rest (s : Scanner) (content : Bytes) :
    (s.stopToken content).2.rest = s.rest := by
  unfold stopToken
  split <;> rfl

@[simp] theorem startToken_rest (s : Scanner) (content : Bytes) :
    (s.startToken content).2.rest = s.rest := by
  unfold startToken
  split <;> rfl

theorem readTag_rest {s t : Scanner} {token : Token} (h : s.readTag = (.ok token, t))
    (hne : token ≠ .endOfInput) : t.rest.length < s.rest.length := by
  unfold readTag at h
  dsimp only at h
  split at h
  · obtain ⟨h, _⟩ := Prod.mk.inj h
    unfold atEnd at h
    split at h
    · cases h
    · cases h
      exact absurd rfl hne
  · next b rest hr =>
    split at h
    · have := readDeclaration_rest h
      rw [hr]
      exact Nat.lt_succ_of_lt this
    · split at h
      · split at h
        · next content u hu =>
          have := congrArg (fun p => p.2.rest.length) h
          simp only [stopToken_rest] at this
          have hlt := readUntil_rest (s := { s with phase := .text }) 0x3E
            (by simp [hr])
          rw [hu] at hlt
          simp only at hlt
          omega
        · cases h
      · split at h
        · split at h
          · next content u hu =>
            have hlt := readUntil_rest (s := { s with phase := .text }) 0x3E
              (by simp [hr])
            rw [hu] at hlt
            obtain ⟨_, rfl⟩ := Prod.mk.inj h
            exact hlt
          · cases h
        · split at h
          · next content after hf =>
            have hlt := findEnd_length hf
            have := congrArg (fun p => p.2.rest.length) h
            simp only [startToken_rest, advance] at this
            omega
          · have := congrArg (fun p => p.2.rest.length) h
            simp only [startToken_rest, advance, List.length_nil] at this
            rw [hr, List.length_cons]
            omega

theorem readText_rest {s t : Scanner} {token : Token} (h : s.readText = (.ok token, t))
    (hne : token ≠ .endOfInput) : t.rest.length < s.rest.length := by
  unfold readText at h
  split at h
  · next rest hr =>
    have := readTag_rest h hne
    rw [hr]
    exact Nat.lt_succ_of_lt this
  · split at h
    · next content u hu =>
      obtain ⟨_, rfl⟩ := Prod.mk.inj h
      by_cases hs : s.rest = []
      · unfold readUntil at hu
        rw [hs] at hu
        simp only [cut, List.takeWhile_nil, List.dropWhile_nil, if_true] at hu
        obtain ⟨hu, _⟩ := Prod.mk.inj hu
        unfold atEnd at hu
        split at hu <;> cases hu
      · have := readUntil_rest 0x3C hs
        rw [hu] at this
        exact this
    · obtain ⟨h, _⟩ := Prod.mk.inj h
      cases h
      exact absurd rfl hne
    · cases h

theorem skipMark_rest_le (s : Scanner) : s.skipMark.rest.length ≤ s.rest.length := by
  unfold skipMark
  split
  · next rest hr =>
    split
    · simp only [advance, hr, List.length_cons]
      omega
    · exact Nat.le_refl _
  · exact Nat.le_refl _

theorem weight_lt_of_rest {s t : Scanner} (h : t.rest.length < s.rest.length) :
    t.weight < s.weight := by
  unfold weight
  split <;> split <;> omega

/-- Each token uses something up. -/
theorem next_weight {s t : Scanner} {token : Token} (h : s.next = (.ok token, t))
    (hne : token ≠ .endOfInput) : t.weight < s.weight := by
  unfold next at h
  split at h
  · cases h
    exact absurd rfl hne
  · next token' u _ hu =>
    cases h
    unfold readAny at hu
    split at hu
    · apply weight_lt_of_rest
      exact Nat.lt_of_lt_of_le (readText_rest hu hne) s.skipMark_rest_le
    · exact weight_lt_of_rest (readText_rest hu hne)
    · exact weight_lt_of_rest (readTag_rest hu hne)
    · next hp =>
      cases hu
      simp [weight, hp]
    · cases hu
      exact absurd rfl hne
  · cases h

theorem next_weight_le {s t : Scanner} {token : Token} (h : s.next = (.ok token, t)) :
    t.weight ≤ s.weight := by
  by_cases hne : token = .endOfInput
  · subst hne
    unfold next at h
    split at h
    · cases h
      exact Nat.zero_le _
    · next hne _ =>
      cases h
      exact absurd rfl hne
    · cases h
  · exact Nat.le_of_lt (next_weight h hne)

end Scanner

end Marc21.Xml
