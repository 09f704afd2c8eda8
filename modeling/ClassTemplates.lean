import ClassTemplates.Attribute
import ClassTemplates.Attribute.Binary
import ClassTemplates.Batch.CatalogFiles
import ClassTemplates.Batch.Error
import ClassTemplates.Batch.Input
import ClassTemplates.Batch.Report
import ClassTemplates.Batch.Run
import ClassTemplates.Body.Basic
import ClassTemplates.Body.OfCode
import ClassTemplates.Body.ToCode
import ClassTemplates.Bytes
import ClassTemplates.ClassFile.Basic
import ClassTemplates.ClassFile.Binary
import ClassTemplates.CommandLine.Arguments
import ClassTemplates.CommandLine.Run
import ClassTemplates.Depth.Analysis
import ClassTemplates.Depth.Effect
import ClassTemplates.Descriptor
import ClassTemplates.Expansion.Class
import ClassTemplates.Expansion.Error
import ClassTemplates.Expansion.Expander
import ClassTemplates.Expansion.Initializer
import ClassTemplates.Expansion.Loads
import ClassTemplates.Expansion.Segment
import ClassTemplates.Files.Archive
import ClassTemplates.Files.Deflate
import ClassTemplates.Files.Path
import ClassTemplates.Files.Tree
import ClassTemplates.Files.Zip.Basic
import ClassTemplates.Files.Zip.Decoding
import ClassTemplates.Files.Zip.Directory
import ClassTemplates.Files.Zip.Encoding
import ClassTemplates.Files.Zip.Record
import ClassTemplates.FormatError
import ClassTemplates.Frame.Basic
import ClassTemplates.Frame.Binary
import ClassTemplates.Insn.Basic
import ClassTemplates.Insn.Decoding
import ClassTemplates.Insn.Encoding
import ClassTemplates.Json.Number
import ClassTemplates.Json.Parser
import ClassTemplates.Json.Printer
import ClassTemplates.Json.Value
import ClassTemplates.Main
import ClassTemplates.ModifiedUtf8
import ClassTemplates.Opcode
import ClassTemplates.Pool.Basic
import ClassTemplates.Pool.Binary
import ClassTemplates.Pool.Constant
import ClassTemplates.Proofs.Batch.Archives
import ClassTemplates.Proofs.Batch.Assets
import ClassTemplates.Proofs.Batch.Delivering
import ClassTemplates.Proofs.Batch.Directories
import ClassTemplates.Proofs.Batch.Mirroring
import ClassTemplates.Proofs.Batch.Offers
import ClassTemplates.Proofs.Body.Canonical
import ClassTemplates.Proofs.Body.Control
import ClassTemplates.Proofs.Body.Decoded
import ClassTemplates.Proofs.Body.Distances
import ClassTemplates.Proofs.Body.Emission
import ClassTemplates.Proofs.Body.Failures
import ClassTemplates.Proofs.Body.Labels
import ClassTemplates.Proofs.Body.Layout
import ClassTemplates.Proofs.Body.Naming
import ClassTemplates.Proofs.Body.Placements
import ClassTemplates.Proofs.Body.Redecoding
import ClassTemplates.Proofs.Body.Relaying
import ClassTemplates.Proofs.Body.Relocation
import ClassTemplates.Proofs.Body.RoundTrip
import ClassTemplates.Proofs.Body.Tables
import ClassTemplates.Proofs.Class.Agreement
import ClassTemplates.Proofs.Class.Appending
import ClassTemplates.Proofs.Class.Approval
import ClassTemplates.Proofs.Class.Changes
import ClassTemplates.Proofs.Class.Deepening
import ClassTemplates.Proofs.Class.Expanding
import ClassTemplates.Proofs.Class.Finishing
import ClassTemplates.Proofs.Class.Idempotence
import ClassTemplates.Proofs.Class.Initializing
import ClassTemplates.Proofs.Class.Laying
import ClassTemplates.Proofs.Class.Linking
import ClassTemplates.Proofs.Class.Listing
import ClassTemplates.Proofs.Class.Operands
import ClassTemplates.Proofs.Class.Rechecking
import ClassTemplates.Proofs.Class.Replacing
import ClassTemplates.Proofs.Class.Running
import ClassTemplates.Proofs.Class.Soundness
import ClassTemplates.Proofs.Class.Storing
import ClassTemplates.Proofs.Class.Unchanged
import ClassTemplates.Proofs.Class.Verifiability
import ClassTemplates.Proofs.Class.Visits
import ClassTemplates.Proofs.Class.WellFormed
import ClassTemplates.Proofs.Depth.Edits
import ClassTemplates.Proofs.Depth.Exact
import ClassTemplates.Proofs.Depth.Expansion
import ClassTemplates.Proofs.Depth.Flow
import ClassTemplates.Proofs.Depth.Layouts
import ClassTemplates.Proofs.Depth.Peaks
import ClassTemplates.Proofs.Depth.Reaching
import ClassTemplates.Proofs.Depth.Skeletons
import ClassTemplates.Proofs.Depth.Steps
import ClassTemplates.Proofs.Descriptors
import ClassTemplates.Proofs.Expansion.Agreement
import ClassTemplates.Proofs.Expansion.Calls
import ClassTemplates.Proofs.Expansion.Code
import ClassTemplates.Proofs.Expansion.Eligible
import ClassTemplates.Proofs.Expansion.Initializer
import ClassTemplates.Proofs.Expansion.Lasting
import ClassTemplates.Proofs.Expansion.Segments
import ClassTemplates.Proofs.Expansion.Settled
import ClassTemplates.Proofs.Expansion.Splices
import ClassTemplates.Proofs.Files.Locations
import ClassTemplates.Proofs.Files.Putting
import ClassTemplates.Proofs.Files.Walking
import ClassTemplates.Proofs.Format.Attributes
import ClassTemplates.Proofs.Format.Classes
import ClassTemplates.Proofs.Format.Frames
import ClassTemplates.Proofs.Format.Pools
import ClassTemplates.Proofs.Format.Prefixes
import ClassTemplates.Proofs.Format.Readers
import ClassTemplates.Proofs.Format.Rereading
import ClassTemplates.Proofs.Format.RoundTrip
import ClassTemplates.Proofs.Format.Storing
import ClassTemplates.Proofs.Insn.Canonical
import ClassTemplates.Proofs.Insn.Encoding
import ClassTemplates.Proofs.Insn.Reading
import ClassTemplates.Proofs.Insn.Spans
import ClassTemplates.Proofs.Insn.Spellings
import ClassTemplates.Proofs.Machine.Assigning
import ClassTemplates.Proofs.Machine.Basic
import ClassTemplates.Proofs.Machine.Meaning
import ClassTemplates.Proofs.Machine.Rendering
import ClassTemplates.Proofs.Machine.Simulation
import ClassTemplates.Proofs.Machine.Straight
import ClassTemplates.Proofs.Machine.Surely
import ClassTemplates.Proofs.Outcome
import ClassTemplates.Proofs.Pool.Additions
import ClassTemplates.Proofs.Pool.Built
import ClassTemplates.Proofs.Pool.Calls
import ClassTemplates.Proofs.Pool.Growth
import ClassTemplates.Proofs.Pool.Lasting
import ClassTemplates.Proofs.Pool.Reuse
import ClassTemplates.Proofs.Template.Catalogs
import ClassTemplates.Proofs.Template.Patterns
import ClassTemplates.Proofs.Template.Scanning
import ClassTemplates.Proofs.Template.Tokens
import ClassTemplates.Proofs.Template.Wrapping
import ClassTemplates.Proofs.Text.Encoding
import ClassTemplates.Proofs.Words
import ClassTemplates.Reader
import ClassTemplates.Scan
import ClassTemplates.Settings
import ClassTemplates.Template.Asset
import ClassTemplates.Template.Catalog
import ClassTemplates.Template.Index
import ClassTemplates.Template.Token
import ClassTemplates.Text.Blank
import ClassTemplates.Text.CodePage437
import ClassTemplates.Text.Hex
import ClassTemplates.Text.Utf16
import ClassTemplates.Text.Utf8
import ClassTemplates.Verify.Class
import ClassTemplates.Verify.Method
import ClassTemplates.Verify.Pool
