/-!
Structured values for exchange with other programs: texts, natural numbers, lists, and objects with
named members. A structure is accepted as an object that has all its members, or as the list of them.
-/

namespace Marc21

/-- `other` stands for any value that is none of these. -/
inductive Form where
  | text (s : String)
  | number (n : Nat)
  | list (items : List Form)
  | object (members : List (String × Form))
  | other
  deriving Inhabited

namespace Form

def member? (members : List (String × Form)) (name : String) : Option Form :=
  (members.find? (·.1 == name)).map Prod.snd

/-- The members of a structure in the order of their names. -/
def members? (names : List String) : Form → Option (List Form)
  | object members => names.mapM (member? members)
  | list items => if items.length = names.length then some items else none
  | _ => none

def text? : Form → Option String
  | text s => some s
  | _ => none

/-- A number up to a greatest one. -/
def number? (greatest : Nat) : Form → Option Nat
  | number n => if n ≤ greatest then some n else none
  | _ => none

/-- A character is a text of one. -/
def char? : Form → Option Char
  | text s => match s.toList with
    | [c] => some c
    | _ => none
  | _ => none

def list? : Form → Option (List Form)
  | list items => some items
  | _ => none

def ofChar (c : Char) : Form := text c.toString

/-- An object with other members put in the place of its own. Names that it does not have are left out. -/
def update (f : Form) (changes : List (String × Form)) : Form :=
  match f with
  | object members =>
    object (members.map fun m => (m.1, (member? changes m.1).getD m.2))
  | unchanged => unchanged

end Form

end Marc21
