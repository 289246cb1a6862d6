import Marc21.Record.Edit

/-!
Blocks of local fields. Each `LOK` field holds a field of its own: after two blanks, a delimiter and a
`0` come a local tag and two local indicators. A block goes on as long as the local tags do not fall.
-/

namespace Marc21

namespace Field

/-- The three bytes after `"  \x1F0"`, or nothing if the contents have no such part. -/
def localTag (f : Field) : String := (ByteSlice.slice? f.contents 4 7).getD ""

def localIndicators (f : Field) : List Char := (ByteSlice.dropBytes 7 f.contents.toList).getD []

/-- True if a local indicator is the wanted one. `?` wants any, even a missing one. -/
def indicatorFits (wanted : Char) (found : Option Char) : Bool :=
  wanted == '?' || found == some wanted

def matchesLocal (f : Field) (localTag : String) (indicator1 indicator2 : Char) : Bool :=
  f.localTag == localTag && indicatorFits indicator1 f.localIndicators[0]? &&
    indicatorFits indicator2 f.localIndicators[1]?

end Field

/-- Puts a range behind those that come before it, or joins it to the last if they overlap or touch. -/
def joinSpan (done : List Span) (s : Span) : List Span :=
  match done with
  | last :: rest =>
    if s.start ≤ last.stop then ⟨last.start, max last.stop s.stop⟩ :: rest else s :: last :: rest
  | [] => [s]

/-- Joins ranges that overlap or touch. The joined ranges come in order. -/
def coalesce (spans : List Span) : List Span :=
  ((spans.mergeSort fun s t => s.start ≤ t.start).foldl joinSpan []).reverse

namespace Record

/-- Offsets within a run of fields at which a block starts: the first one, and each one whose local tag
is smaller than the one before. -/
def blockOffsets (run : List Field) : List Nat :=
  match run.map Field.localTag with
  | [] => []
  | first :: rest =>
    0 :: (((first :: rest).zip rest).zipIdx 1).filterMap fun ((before, here), i) =>
      if here < before then some i else none

def localBlockStarts (r : Record) : List Nat :=
  (blockOffsets (r.fieldsWithTag Tag.localBlock)).map ((r.tagSpan Tag.localBlock).start + ·)

def localBlocks (r : Record) : List Span :=
  let starts := r.localBlockStarts
  List.zipWith Span.mk starts (starts.drop 1 ++ [(r.tagSpan Tag.localBlock).stop])

/-- The first run of matching fields within a block, or an empty range at the block's end. -/
def findInLocalBlock (r : Record) (localTag : String) (indicator1 indicator2 : Char)
    (block : Span) : Span :=
  let stop := min block.stop r.fields.length
  let start := min block.start stop
  let fields := (r.fields.drop start).take (stop - start)
  let fits (f : Field) : Bool := f.matchesLocal localTag indicator1 indicator2
  match fields.findIdx? fits with
  | none => ⟨stop, stop⟩
  | some first =>
    ⟨block.start + first, block.start + first + ((fields.drop first).takeWhile fits).length⟩

/-- Deletes the blocks that start at the given indices, the last one first. -/
def deleteLocalBlocks (r : Record) (starts : List Nat) : Record :=
  (coalesce (r.localBlocks.filter fun b => starts.contains b.start)).foldr
    (fun span r => r.deleteSpan span) r

end Record

end Marc21
