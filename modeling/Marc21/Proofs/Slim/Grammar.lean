import Marc21.Proofs.Field
import Marc21.Proofs.Slim.LeaderText

/-!
The grammar of MARC-XML as trees. Each kind of element has its tags and its content, the events that it is made
of, and what it stands for. White space that only sets elements apart is no part of it (`significant`).
-/

namespace Marc21.Slim

open Xml (Attributes Event)

/-! ## White space -/

/-- Elements in which all character data counts. -/
def holdsText (name : String) : Bool := name == "leader" || name == "controlfield" || name == "subfield"

/-- Whether what comes after an event is inside of an element of text. -/
def insideAfter (inside : Bool) : Event → Bool
  | .opening name _ => inside || holdsText name
  | .closing name => inside && !holdsText name
  | _ => inside

/-- Events without the white space outside of elements of text. -/
def significant (inside : Bool) : List (Nat × Event) → List (Nat × Event)
  | [] => []
  | (line, event) :: rest =>
    if event.isSeparator && !inside then significant inside rest
    else (line, event) :: significant (insideAfter inside event) rest

/-! ## Elements -/

/-- The attributes that may bind an element to a namespace bind it to that of MARC-XML. -/
def SlimOnly (as : Attributes) : Prop :=
  ∀ key ∈ ["xmlns", "xmlns:marc"], ∀ value ∈ as.value? key, value = slimNamespace

/-- An element of text: its tags, and at most one piece of character data in between. -/
def textEvents (name : String) (as : Attributes) (content : Option String) : List Event :=
  .opening name as :: (content.toList.map Event.text ++ [.closing name])

structure LeaderElement where
  attributes : Attributes
  text : String
  usable : LeaderText text

structure ControlElement where
  attributes : Attributes
  tag : Tag
  content : Option String
  hasTag : attributes.value? "tag" = some tag.text

structure SubfieldElement where
  attributes : Attributes
  code : Char
  content : Option String
  hasCode : attributes.value? "code" = some code.toString

structure DataElement where
  attributes : Attributes
  tag : Tag
  indicator1 : Char
  indicator2 : Char
  subfields : List SubfieldElement
  hasTag : attributes.value? "tag" = some tag.text
  hasIndicator1 : attributes.value? "ind1" = some indicator1.toString
  hasIndicator2 : attributes.value? "ind2" = some indicator2.toString

structure RecordElement where
  attributes : Attributes
  slimOnly : SlimOnly attributes
  leader : LeaderElement
  controls : List ControlElement
  datas : List DataElement

/-- A document up to its end, or up to the end of its collection, behind which anything may follow. -/
inductive Document where
  | collection (attributes : Attributes) (slimOnly : SlimOnly attributes) (elements : List RecordElement)
  | lone (element : RecordElement)

/-! ## Events -/

def LeaderElement.events (e : LeaderElement) : List Event := textEvents "leader" e.attributes (some e.text)

def ControlElement.events (e : ControlElement) : List Event :=
  textEvents "controlfield" e.attributes e.content

def SubfieldElement.events (e : SubfieldElement) : List Event := textEvents "subfield" e.attributes e.content

def DataElement.events (e : DataElement) : List Event :=
  .opening "datafield" e.attributes ::
    (e.subfields.flatMap SubfieldElement.events ++ [.closing "datafield"])

/-- What comes behind the opening tag of a record. All control fields come before the data fields. -/
def RecordElement.body (e : RecordElement) : List Event :=
  e.leader.events ++ (e.controls.flatMap ControlElement.events ++
    (e.datas.flatMap DataElement.events ++ [.closing "record"]))

def RecordElement.events (e : RecordElement) : List Event := .opening "record" e.attributes :: e.body

def Document.events : Document → List Event
  | collection as _ elements =>
    .opening "collection" as :: (elements.flatMap RecordElement.events ++ [.closing "collection"])
  | lone element => element.events ++ [.endOfDocument]

/-! ## Meaning -/

/-- A control field without content is dropped. -/
def ControlElement.field? (e : ControlElement) : Option Field :=
  if e.content.getD "" = "" then none else some ⟨e.tag, e.content.getD ""⟩

/-- A subfield without content is dropped. -/
def SubfieldElement.subfield? (e : SubfieldElement) : Option Subfield :=
  if e.content.getD "" = "" then none else some ⟨e.code, e.content.getD ""⟩

def DataElement.values (e : DataElement) : Subfields := e.subfields.filterMap SubfieldElement.subfield?

/-- A data field in which no subfield has content is dropped. -/
def DataElement.field? (e : DataElement) : Option Field :=
  if e.values = [] then none else some (Field.data e.tag e.indicator1 e.indicator2 e.values)

/-- The fields of a record in record order. -/
def RecordElement.record (e : RecordElement) : Record :=
  (Record.ofParts (leaderAt e.leader.text)
    (e.controls.filterMap ControlElement.field? ++ e.datas.filterMap DataElement.field?)).sorted

def Document.records : Document → List Record
  | collection _ _ elements => elements.map RecordElement.record
  | lone element => [element.record]

/-! ## Attributes -/

section

variable {as : Attributes} {element key : String}

theorem requiredTag_eq_ok {tag : Tag} :
    requiredTag as element = .ok tag ↔ as.value? "tag" = some tag.text := by
  rw [requiredTag, required]
  cases as.value? "tag" with
  | none => simp [bind, Except.bind]
  | some text =>
    simp only [bind, Except.bind, Option.some.injEq]
    constructor
    · intro h
      split at h
      · next found hfound =>
        cases h
        exact Utf8.encode_injective ((Tag.bytes_of_ofBytes? hfound).symm.trans tag.encode_text.symm)
      · cases h
    · rintro rfl
      rw [Tag.ofString?_text]

theorem requiredChar_eq_ok {c : Char} :
    requiredChar as element key = .ok c ↔ as.value? key = some c.toString := by
  rw [requiredChar, required]
  cases as.value? key with
  | none => simp [bind, Except.bind]
  | some value =>
    simp only [bind, Except.bind, Option.some.injEq]
    constructor
    · intro h
      split at h
      · next found hfound =>
        cases h
        rw [← String.ofList_toList (s := value), hfound]
        rfl
      · cases h
    · rintro rfl
      simp

/-- What is asked of one of the two attributes that bind namespaces. -/
private def checkNamespace (as : Attributes) (key : String) : Except DocumentFault Unit :=
  match as.value? key with
  | some value =>
    if value = slimNamespace then .ok () else .error (.foreignNamespace key value)
  | none => .ok ()

private theorem checkNamespace_eq_ok :
    checkNamespace as key = .ok () ↔ ∀ value ∈ as.value? key, value = slimNamespace := by
  unfold checkNamespace
  cases as.value? key with
  | none => simp
  | some value => by_cases h : value = slimNamespace <;> simp [h]

theorem checkNamespaces_eq_ok : checkNamespaces as = .ok () ↔ SlimOnly as := by
  have hunfold : checkNamespaces as = (checkNamespace as "xmlns").bind fun _ =>
      (checkNamespace as "xmlns:marc").bind fun _ => .ok () := rfl
  rw [hunfold, SlimOnly, List.forall_mem_cons, List.forall_mem_singleton, ← checkNamespace_eq_ok,
    ← checkNamespace_eq_ok]
  cases checkNamespace as "xmlns" with
  | error e => simp [Except.bind]
  | ok _ => cases checkNamespace as "xmlns:marc" <;> simp [Except.bind]

end

end Marc21.Slim
