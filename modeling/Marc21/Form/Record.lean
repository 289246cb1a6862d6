import Marc21.Form.Basic
import Marc21.Record.Basic

/-!
The structured forms of tags, subfields, fields, leaders and records. The size of a record is part of
its form and is taken as it is given.
-/

namespace Marc21

namespace Tag

def form (t : Tag) : Form := .text t.text

def ofForm? (f : Form) : Option Tag := f.text?.bind Tag.ofString?

end Tag

namespace Subfield

def form (s : Subfield) : Form := .object [("code", .ofChar s.code), ("value", .text s.value)]

def ofForm? (f : Form) : Option Subfield :=
  match f.members? ["code", "value"] with
  | some [code, value] => return ⟨← code.char?, ← value.text?⟩
  | _ => none

end Subfield

namespace Subfields

def form (ss : Subfields) : Form := .object [("subfields", .list (ss.map Subfield.form))]

def ofForm? (f : Form) : Option Subfields :=
  match f.members? ["subfields"] with
  | some [items] => items.list?.bind fun fs => fs.mapM Subfield.ofForm?
  | _ => none

end Subfields

namespace Field

def form (f : Field) : Form := .object [("tag", f.tag.form), ("contents", .text f.contents)]

def ofForm? (f : Form) : Option Field :=
  match f.members? ["tag", "contents"] with
  | some [tag, contents] => return ⟨← Tag.ofForm? tag, ← contents.text?⟩
  | _ => none

end Field

namespace EntryMap

def form (m : EntryMap) : Form :=
  .list ([m.lengthWidth, m.offsetWidth, m.implementationWidth, m.undefined].map Form.ofChar)

def ofForm? (f : Form) : Option EntryMap :=
  match f with
  | .list [a, b, c, d] => return ⟨← a.char?, ← b.char?, ← c.char?, ← d.char?⟩
  | _ => none

end EntryMap

/-- The greatest number of 32 bits. -/
def greatest32 : Nat := 4294967295

/-- The greatest number of 64 bits. -/
def greatest64 : Nat := 18446744073709551615

namespace Leader

def memberNames : List String :=
  ["record_length", "record_status", "record_type", "bibliographic_level", "control_record_type",
    "character_coding", "indicator_count", "subfield_code_count", "data_base_address",
    "encoding_level", "cataloging_form", "multipart_level", "entry_map"]

def form (l : Leader) : Form :=
  .object (memberNames.zip
    [.number l.recordLength, .ofChar l.status, .ofChar l.recordType, .ofChar l.level,
      .ofChar l.controlType, .ofChar l.coding, .number l.indicatorCount,
      .number l.subfieldCodeCount, .number l.baseAddress, .ofChar l.encodingLevel,
      .ofChar l.catalogingForm, .ofChar l.multipartLevel, l.entryMap.form])

/-- The lengths have to fit 32 bits and the counts 8. -/
def ofForm? (f : Form) : Option Leader :=
  match f.members? memberNames with
  | some [length, status, type, level, control, coding, indicators, codes, base, encoding,
      cataloging, multipart, map] => return {
        recordLength := ← length.number? greatest32
        status := ← status.char?
        recordType := ← type.char?
        level := ← level.char?
        controlType := ← control.char?
        coding := ← coding.char?
        indicatorCount := ← indicators.number? 255
        subfieldCodeCount := ← codes.number? 255
        baseAddress := ← base.number? greatest32
        encodingLevel := ← encoding.char?
        catalogingForm := ← cataloging.char?
        multipartLevel := ← multipart.char?
        entryMap := ← EntryMap.ofForm? map }
  | _ => none

/-- A leader with some members of its form changed. -/
def update? (l : Leader) (changes : Form) : Option Leader :=
  match changes with
  | .object members => ofForm? (l.form.update members)
  | _ => none

end Leader

namespace Record

def form (r : Record) : Form :=
  .object [("leader", r.leader.form), ("fields", .list (r.fields.map Field.form)),
    ("record_size", .number r.size)]

def ofForm? (f : Form) : Option Record :=
  match f.members? ["leader", "fields", "record_size"] with
  | some [leader, fields, size] => do
    let fields ← fields.list?
    return ⟨← Leader.ofForm? leader, ← fields.mapM Field.ofForm?, ← size.number? greatest64⟩
  | _ => none

end Record

end Marc21
