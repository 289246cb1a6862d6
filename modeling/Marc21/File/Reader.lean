import Marc21.File.Guess

/-!
Reading records from a file. A reader holds the number of its file and looks at the bytes which that file
has by then. Bytes come in blocks, and those that were fetched stay as they were.
-/

namespace Marc21

/-- An open file. A folder can be opened too, but not read. For the bytes of a document, `fetched` says
how many are fetched and `ahead` holds those that the reader has not come to. -/
structure FileReader where
  path : String
  file : Option FileId
  records : RecordReader
  fetched : Nat
  ahead : Bytes

namespace FileReader

/-- A reader at the start of what is at a path. -/
def ofNode (path : String) (node : Node) (format : RecordFormat) : FileReader :=
  let file := match node with
    | .folder => none
    | .file id => some id
  let failure := FileTree.isAFolder
  let records := match format with
    | .binary => RecordReader.binary (.ofSource { Source.ofArray #[] with
        block := blockSize
        failAt := if file.isNone then some 0 else none
        readFailure := failure })
    | .xml => .xml (.ofInput { Slim.Input.ofBytes [] with
        supply := .blocks 0 blockSize
        broken := if file.isNone then some failure.message else none })
  ⟨path, file, records, 0, []⟩

def format (r : FileReader) : RecordFormat := r.records.format

def recordsRead (r : FileReader) : Nat := r.records.recordsRead

/-- The bytes that the file has now. -/
def bytes (r : FileReader) (t : FileTree) : Array UInt8 := (r.file.map t.bytes).getD #[]

/-- The records of the file as it is now. -/
def current (r : FileReader) (t : FileTree) : RecordReader :=
  match r.records with
  | .binary b => .binary (b.withContent (r.bytes t))
  | .xml x =>
    let content := (r.bytes t).toList
    .xml (x.withContent content (r.ahead ++ content.drop r.fetched)
      (.blocks r.ahead.length blockSize))

/-- The reader once reading has led from `before` to `after`. -/
def moved (r : FileReader) (t : FileTree) (before after : RecordReader) : FileReader :=
  match before, after with
  | .xml x, .xml y =>
    let taken := x.unread - y.unread
    let beyond := taken - r.ahead.length
    if beyond = 0 then { r with records := after, ahead := r.ahead.drop taken }
    else
      let content := r.bytes t
      let blocks := (beyond + blockSize - 1) / blockSize
      let fetched := min content.size (r.fetched + blocks * blockSize)
      { r with
        records := after
        fetched
        ahead := (content.extract (r.fetched + beyond) fetched).toList }
  | _, _ => { r with records := after }

def read (r : FileReader) (t : FileTree) : Outcome FileReader (Option Record) :=
  (r.current t).read.mapState (r.moved t (r.current t))

def readAll (r : FileReader) (t : FileTree) : Outcome FileReader (List Record) :=
  (r.current t).readAll.mapState (r.moved t (r.current t))

def iterate (r : FileReader) (t : FileTree) (n : Nat) :
    List (Except MarcError Record) × FileReader × List Notice :=
  let (items, last, notices) := (r.current t).iterate n
  (items, r.moved t (r.current t) last, notices)

def rewind (r : FileReader) (t : FileTree) : Outcome FileReader Unit :=
  (r.current t).rewind.mapState fun records => { r with records, fetched := 0, ahead := [] }

/-- Offsets in a file stay below this. -/
def offsetLimit : Nat := 9223372036854775808

/-- The offset of the next record. Only binary files have offsets. -/
def tell (r : FileReader) : Except MarcError Nat :=
  match r.records with
  | .binary b => .ok b.tell
  | .xml _ => .error (.unsupportedFileType (.xmlPositioning r.path))

def seek (r : FileReader) (offset : Nat) : Outcome FileReader Unit :=
  match r.records with
  | .binary b =>
    if offset < offsetLimit then (b.seek offset).mapState fun b => { r with records := .binary b }
    else ⟨.error (.streamFailed FileTree.offsetUnusable), r, []⟩
  | .xml _ => ⟨.error (.unsupportedFileType (.xmlPositioning r.path)), r, []⟩

end FileReader

namespace FileTree

def openAs (t : FileTree) (path : String) (format : RecordFormat) : Except MarcError FileReader :=
  match t.find path with
  | .error failure => .error (.streamFailed failure)
  | .ok node => .ok (.ofNode path node format)

/-- Opens a file to read. Where no format is given it is guessed, also from the contents. -/
def openReader (t : FileTree) (path : String) (format : Option RecordFormat) :
    Except MarcError FileReader × List Notice :=
  match format with
  | some f => (t.openAs path f, [])
  | none =>
    match t.guessFormat path true with
    | (.error e, notices) => (.error e, notices)
    | (.ok f, notices) => (t.openAs path f, notices)

end FileTree

end Marc21
