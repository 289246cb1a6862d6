import Marc21.Record.Basic
import Marc21.Text.ByteSlice
import Marc21.Text.LowerCase

/-!
Questions about a record. Those about a tag look at the run of fields that starts at the first field
with the tag, which in a sorted record is all of them.
-/

namespace Marc21.Record

def firstField? (r : Record) (tag : Tag) : Option Field := r.fields.find? (·.tag = tag)

def hasTag (r : Record) (tag : Tag) : Bool := (r.firstField? tag).isSome

/-- Where the first run of a tag lies. It is empty and at the end if there is none. -/
def tagSpan (r : Record) (tag : Tag) : Span :=
  let start := r.fields.findIdx (·.tag = tag)
  ⟨start, start + ((r.fields.drop start).takeWhile (·.tag = tag)).length⟩

def fieldsWithTag (r : Record) (tag : Tag) : List Field :=
  (r.fields.dropWhile (·.tag ≠ tag)).takeWhile (·.tag = tag)

def hasTagWithIndicators (r : Record) (tag : Tag) (indicator1 indicator2 : Char) : Bool :=
  (r.fieldsWithTag tag).any fun f =>
    f.indicator1? == some indicator1 && f.indicator2? == some indicator2

/-- Values under any of the codes in the fields with a tag. -/
def subfieldValues (r : Record) (tag : Tag) (codes : String) : List String :=
  (r.fieldsWithTag tag).flatMap fun f => f.subfields.values codes

/-- The tags of a record, each once and in order. -/
def tags (r : Record) : List Tag :=
  ((r.fields.map Field.tag).mergeSort fun s t => s.rank ≤ t.rank).eraseReps

def isMonograph (r : Record) : Bool := r.leader.level == 'm'

def isSerial (r : Record) : Bool := r.leader.level == 's'

/-- Component parts of monographs and of serials. -/
def isArticle (r : Record) : Bool := r.leader.level == 'a' || r.leader.level == 'b'

/-- Carriers in 338 that stand for computer and online media. -/
def electronicCarriers : List String := ["ca", "cb", "cd", "ce", "cf", "ch", "ck", "cr", "cz"]

/-- Tells computer files and online resources by the leader, by 007 of a monograph, by the medium in
the title, by the extent, or by the carrier. -/
def isElectronic (r : Record) : Bool :=
  r.leader.recordType == 'm' ||
  (r.isMonograph && (r.fieldsWithTag Tag.physicalDescriptionFixed).any
    fun f => f.contents.toList.head? == some 'c') ||
  (r.subfieldValues Tag.titleStatement "h").any
    (fun h => LowerCase.contains h "[electronic resource]" ||
      LowerCase.contains h "[elektronische ressource]") ||
  (r.subfieldValues Tag.physicalDescription "a").any
    (fun a => LowerCase.contains a "online-ressource") ||
  (r.subfieldValues Tag.carrierType "b").any electronicCarriers.contains

/-- Positions 35 to 37 of the first 008, unless they are blank. -/
def language? (r : Record) : Option String :=
  ((r.firstField? Tag.fixedLengthData).bind fun f => ByteSlice.slice? f.contents 35 38).filter
    fun code => !Blank.isBlankText code

end Marc21.Record
