import Marc21.File.Path
import Marc21.Error

/-!
A tree of folders and files. Files have numbers, and a place in the tree holds the number of its file.
So a file that is open stays what it is when another one takes its place. Writes to files can fail, and the
tree says which of them will.
-/

namespace Marc21

abbrev FileId := Nat

/-- The names on the way from the top folder to a place, innermost first. -/
abbrev Location := List String

inductive Node where
  | folder
  | file (id : FileId)
  deriving DecidableEq, Repr

/-- A write that fails unless there is room for all of its bytes. What there is room for goes through. -/
structure WriteFault where
  room : Nat
  failure : StreamFailure
  deriving DecidableEq, Repr

/-- All that the top folder holds at any depth, the bytes of the files by number, and what is wrong with the next
writes to files. Nothing is wrong with the writes after those. -/
structure FileTree where
  nodes : List (Location × Node)
  files : Array (Array UInt8)
  faults : List (Option WriteFault)
  deriving DecidableEq, Repr

namespace FileTree

def missing : StreamFailure := .system "No such file or directory (os error 2)"

def alreadyThere : StreamFailure := .system "File exists (os error 17)"

def notAFolder : StreamFailure := .system "Not a directory (os error 20)"

def isAFolder : StreamFailure := .system "Is a directory (os error 21)"

def nameTooLong : StreamFailure := .system "File name too long (os error 36)"

def offsetUnusable : StreamFailure := .system "Invalid argument (os error 22)"

def nameUnusable : StreamFailure := .reported "file name contained an unexpected NUL byte"

/-- Bytes that a path as a whole may not reach. -/
def pathLimit : Nat := 4096

def empty : FileTree := ⟨[], #[], []⟩

def node? (t : FileTree) (place : Location) : Option Node :=
  if place = [] then some .folder else t.nodes.lookup place

/-- One step from a folder. -/
def enter (t : FileTree) (place : Location) (name : String) : Except StreamFailure Location :=
  match t.node? place with
  | none => .error missing
  | some (.file _) => .error notAFolder
  | some .folder =>
    if name = "." then .ok place
    else if name = ".." then .ok place.tail
    else if 255 < name.utf8ByteSize then .error nameTooLong
    else .ok (name :: place)

/-- The place that a path leads to. All places on the way are folders, and this one may be vacant. -/
def locate (t : FileTree) (path : String) : Except StreamFailure Location :=
  if path.toList.contains '\x00' then .error nameUnusable
  else if pathLimit ≤ path.utf8ByteSize then .error nameTooLong
  else if path = "" then .error missing
  else (Path.steps path).foldlM t.enter []

/-- What is at a path. -/
def find (t : FileTree) (path : String) : Except StreamFailure Node := do
  match t.node? (← t.locate path) with
  | none => .error missing
  | some .folder => .ok .folder
  | some (.file id) => if Path.wantsFolder path then .error notAFolder else .ok (.file id)

def has (t : FileTree) (path : String) : Bool := (t.find path).isOk

/-- The bytes of a file. -/
def bytes (t : FileTree) (id : FileId) : Array UInt8 := t.files.getD id #[]

def setBytes (t : FileTree) (id : FileId) (content : Array UInt8) : FileTree :=
  { t with files := t.files.setIfInBounds id content }

def read (t : FileTree) (path : String) : Except StreamFailure (Array UInt8) := do
  match ← t.find path with
  | .folder => .error isAFolder
  | .file id => .ok (t.bytes id)

/-- The file at a path, which is made if the place is vacant. -/
def obtain (t : FileTree) (path : String) : Except StreamFailure (FileId × FileTree) := do
  let place ← t.locate path
  match t.node? place with
  | some .folder => .error isAFolder
  | some (.file id) => if Path.wantsFolder path then .error notAFolder else .ok (id, t)
  | none =>
    if Path.wantsFolder path then .error isAFolder
    else .ok (t.files.size,
      { t with nodes := (place, .file t.files.size) :: t.nodes, files := t.files.push #[] })

/-- Gives the file at a path a content. -/
def put (t : FileTree) (path : String) (content : Array UInt8) : Except StreamFailure FileTree := do
  let (id, t) ← t.obtain path
  return t.setBytes id content

def makeFolder (t : FileTree) (path : String) : Except StreamFailure FileTree := do
  let place ← t.locate path
  match t.node? place with
  | some _ => .error alreadyThere
  | none => .ok { t with nodes := (place, .folder) :: t.nodes }

/-- Moves a file to another place. A file that was there loses it. Between two places of one file nothing
is moved. -/
def moveFile (t : FileTree) (source target : String) : Except StreamFailure FileTree := do
  let node ← t.find source
  let left ← t.locate source
  let taken ← t.locate target
  if node = .folder ∨ t.node? taken = some .folder then .error isAFolder
  else if t.node? taken = some node then .ok t
  else
    let others := t.nodes.filter fun n => n.1 ≠ left ∧ n.1 ≠ taken
    .ok { t with nodes := (taken, node) :: others }

/-- The names in the top folder, in order. -/
def topNames (t : FileTree) : List String :=
  (t.nodes.filterMap fun n => match n.1 with
    | [name] => some name
    | _ => none).mergeSort fun a b => !(b < a)

/-- Writes into a file at an offset. What is left out behind its end is filled with zeros. -/
def writeAt (t : FileTree) (id : FileId) (offset : Nat) (bs : Bytes) : FileTree :=
  let old := t.bytes id
  let before := old.extract 0 offset ++ Array.replicate (offset - old.size) 0
  t.setBytes id (before ++ bs ++ old.extract (offset + bs.length) old.size)

def append (t : FileTree) (id : FileId) (bs : Bytes) : FileTree := t.setBytes id (t.bytes id ++ bs)

/-- How many bytes of the next write go through, and what it comes to. -/
def nextWrite (t : FileTree) (length : Nat) : Nat × Except StreamFailure Unit :=
  match t.faults with
  | some fault :: _ =>
    if length ≤ fault.room then (length, .ok ()) else (fault.room, .error fault.failure)
  | _ => (length, .ok ())

/-- The tree when one more write was made. -/
def pastWrite (t : FileTree) : FileTree := { t with faults := t.faults.tail }

end FileTree

end Marc21
