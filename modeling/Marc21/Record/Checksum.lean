import Marc21.Record.Basic
import Marc21.Digest.Sha1

/-!
Checksums that do not depend on the order of fields. What is hashed is the leader and then, sorted by
tag and contents, the tag and contents of every field that is not left out.
-/

namespace Marc21.Record

/-- The fields that a checksum covers, in the order in which it takes them. -/
def checksumFields (r : Record) (excluded : List Tag) (suppressLocal : Bool) : List Field :=
  (r.fields.filter fun f => !excluded.contains f.tag && !(suppressLocal && f.tag.isLocal)).mergeSort
    fun f g => (f.compare g).isLE

def checksumInput (r : Record) (excluded : List Tag) (suppressLocal : Bool) : Bytes :=
  r.leader.bytes ++ (r.checksumFields excluded suppressLocal).flatMap fun f =>
    f.tag.bytes ++ Utf8.encode f.contents

def checksum (r : Record) (excluded : List Tag) (suppressLocal : Bool) : String :=
  Sha1.hex (Sha1.digest (r.checksumInput excluded suppressLocal))

end Marc21.Record
