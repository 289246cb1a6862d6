import Marc21.Text.Blank
import Marc21.Text.Quoted

/-!
XML as a reader of records sees it: opening tags with their attributes, closing tags, character data
and the end of the document. Element names are local names, without a namespace prefix.
-/

namespace Marc21.Xml

abbrev Attributes := List (String × String)

inductive Event where
  | opening (name : String) (attributes : Attributes)
  | closing (name : String)
  | text (content : String)
  | endOfDocument
  deriving DecidableEq, Repr

/-- The value of an attribute by its qualified name. -/
def Attributes.value? (as : Attributes) (key : String) : Option String :=
  (as.find? (·.1 == key)).map Prod.snd

/-- Gives an attribute a value, in its old place if it was there. -/
def Attributes.insert (as : Attributes) (key value : String) : Attributes :=
  if as.any (·.1 == key) then as.map fun a => if a.1 == key then (key, value) else a
  else as ++ [(key, value)]

namespace Event

/-- Character data that is white space alone separates elements. -/
def isSeparator : Event → Bool
  | .text s => Blank.isBlankText s
  | _ => false

def description : Event → String
  | .opening name _ => s!"opening tag <{name}>"
  | .closing name => s!"closing tag </{name}>"
  | .text s => s!"character data {Quoted.text (String.ofList (s.toList.take 40))}"
  | .endOfDocument => "end of document"

end Event

end Marc21.Xml
