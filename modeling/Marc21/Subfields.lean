import Marc21.Halving

/-!
Subfields of a data field. In field contents they follow the two indicators as runs of a delimiter, a
code character and a value. `Subfields.ofContents` decodes the runs and `Subfields.encode` writes them.
-/

namespace Marc21

def delimiter : Char := '\x1F'

structure Subfield where
  code : Char
  value : String
  deriving DecidableEq, Repr

abbrev Subfields := List Subfield

/-- The text before the first delimiter, and what stands between each delimiter and the next. -/
def delimitedRuns (s : List Char) : List Char × List (List Char) :=
  s.foldr (fun c (head, runs) => if c = delimiter then ([], head :: runs) else (c :: head, runs))
    ([], [])

/-- A run whose code is missing makes no subfield. -/
def Subfield.ofRun? : List Char → Option Subfield
  | [] => none
  | code :: value => some ⟨code, String.ofList value⟩

def Subfield.encode (s : Subfield) : List Char := delimiter :: s.code :: s.value.toList

namespace Subfields

/-- The subfields of a data field's contents, in their order there. -/
def ofContents (contents : String) : Subfields :=
  (delimitedRuns (contents.toList.drop 2)).2.filterMap Subfield.ofRun?

def encode (ss : Subfields) : List Char := ss.flatMap Subfield.encode

/-- Where a code belongs in a list in order: behind all codes that are not greater. -/
def place (ss : Subfields) (code : Char) : Nat := bisect (·.code ≤ code) ss

def add (ss : Subfields) (code : Char) (value : String) : Subfields :=
  ss.take (ss.place code) ++ ⟨code, value⟩ :: ss.drop (ss.place code)

def push (ss : Subfields) (code : Char) (value : String) : Subfields := ss ++ [⟨code, value⟩]

def has (ss : Subfields) (code : Char) : Bool := ss.any (·.code == code)

def first? (ss : Subfields) (code : Char) : Option String :=
  (ss.find? (·.code == code)).map Subfield.value

/-- Values of the subfields whose codes are among the given ones. -/
def values (ss : Subfields) (codes : String) : List String :=
  (ss.filter fun s => codes.toList.contains s.code).map Subfield.value

/-- Gives the first subfield of a code another value, or `none` if the code is absent. -/
def replaceFirst? : Subfields → Char → String → Option Subfields
  | [], _, _ => none
  | s :: rest, code, value =>
    if s.code = code then some (⟨code, value⟩ :: rest)
    else (replaceFirst? rest code value).map (s :: ·)

def deleteFirst (ss : Subfields) (code : Char) : Subfields := ss.eraseP (·.code == code)

def deleteAll (ss : Subfields) (code : Char) : Subfields := ss.filter (·.code != code)

end Subfields

theorem delimitedRuns_cons (c : Char) (s : List Char) :
    delimitedRuns (c :: s) = if c = delimiter
      then ([], (delimitedRuns s).1 :: (delimitedRuns s).2)
      else (c :: (delimitedRuns s).1, (delimitedRuns s).2) := rfl

/-- A text without the delimiter goes to the front of what follows it. -/
theorem delimitedRuns_append {v : List Char} (h : delimiter ∉ v) (s : List Char) :
    delimitedRuns (v ++ s) = (v ++ (delimitedRuns s).1, (delimitedRuns s).2) := by
  induction v with
  | nil => rfl
  | cons c v ih =>
    rw [List.mem_cons, not_or] at h
    rw [List.cons_append, delimitedRuns_cons, if_neg (Ne.symm h.1), ih h.2]
    rfl

end Marc21
