import Marc21.Form.Record
import Marc21.File.OffsetIndex
import Marc21.File.Inspection
import Marc21.File.Duplicates
import Marc21.Proofs.Record.Origin
import Marc21.Proofs.Record.Validity
import Marc21.Proofs.Record.EncodedFields
import Marc21.Proofs.Record.Checksum
import Marc21.Proofs.Record.LocalBlock
import Marc21.Proofs.Record.BlockDeletion
import Marc21.Proofs.Record.Draining
import Marc21.Proofs.Record.LocalSearch
import Marc21.Proofs.Record.Repeatability
import Marc21.Proofs.Record.Assembly
import Marc21.Proofs.Record.SubfieldEdits
import Marc21.Proofs.Record.RunOperations
import Marc21.Proofs.Record.FieldDeletion
import Marc21.Proofs.Field.Editing
import Marc21.Proofs.Leader.Codec
import Marc21.Proofs.Subfields.Insertion
import Marc21.Proofs.Iso2709.RoundTrip
import Marc21.Proofs.Iso2709.SelfDescription
import Marc21.Proofs.Iso2709.Acceptance
import Marc21.Proofs.Iso2709.Position
import Marc21.Proofs.Iso2709.StreamOffset
import Marc21.Proofs.Iso2709.Layout
import Marc21.Proofs.Iso2709.Calls
import Marc21.Proofs.Iso2709.Delivery
import Marc21.Proofs.Iso2709.Truncation
import Marc21.Proofs.Iso2709.Recognition
import Marc21.Proofs.Slim.RoundTrip
import Marc21.Proofs.Slim.Documents
import Marc21.Proofs.Slim.Stability
import Marc21.Proofs.Slim.Truncation
import Marc21.Proofs.Slim.Namespaces
import Marc21.Proofs.Slim.Iteration
import Marc21.Proofs.Slim.Recutting
import Marc21.Proofs.Format.Conversion
import Marc21.Proofs.Format.Rewind
import Marc21.Proofs.Format.Flushing
import Marc21.Proofs.File.LockedWrite
import Marc21.Proofs.File.OffsetIndex
