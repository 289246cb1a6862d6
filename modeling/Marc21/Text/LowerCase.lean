/-!
Lower case as far as ASCII letters come of it. Beside the capitals, the Kelvin sign has the lower case
`k`, and the dotted capital `İ` turns into an `i` with a combining dot. Searching a text for a word of
ASCII letters without regard to case needs no other mapping.
-/

namespace Marc21.LowerCase

def lower (c : Char) : List Char :=
  if c = '\u212A' then ['k']
  else if c = '\u0130' then ['i', '\u0307']
  else [c.toLower]

def lowered (s : String) : List Char := s.toList.flatMap lower

def occurs (word : List Char) : List Char → Bool
  | [] => word.isEmpty
  | c :: r => word.isPrefixOf (c :: r) || occurs word r

/-- True if `word`, which is in lower case, stands somewhere in `s` in any mixture of cases. -/
def contains (s word : String) : Bool := occurs word.toList (lowered s)

end Marc21.LowerCase
