import DexGraph.Assembly.Basic
import DexGraph.Assembly.Items
import DexGraph.Assembly.Tables
import DexGraph.Bytes.Basic
import DexGraph.Bytes.Cursor
import DexGraph.Bytes.Decoder
import DexGraph.Bytes.Leb128
import DexGraph.Bytes.LittleEndian
import DexGraph.Bytes.Stream
import DexGraph.Checksum.Adler32
import DexGraph.Checksum.Sha1
import DexGraph.CodeOrder
import DexGraph.Codec.ClassData
import DexGraph.Codec.CodeItem
import DexGraph.Codec.DebugInfo
import DexGraph.Codec.HiddenApi
import DexGraph.Codec.Lists
import DexGraph.Codec.Tables
import DexGraph.Codec.TracedValue
import DexGraph.Codec.Value
import DexGraph.CrossReferences
import DexGraph.Dex
import DexGraph.Error
import DexGraph.Format.AccessFlags
import DexGraph.Format.FileHeader
import DexGraph.Format.MapItemType
import DexGraph.Format.MapList
import DexGraph.Format.Row
import DexGraph.Format.Tags
import DexGraph.Gather
import DexGraph.Graph.Basic
import DexGraph.Graph.Collection
import DexGraph.Graph.Entities
import DexGraph.Graph.HiddenApi
import DexGraph.Graph.Names
import DexGraph.Graph.OffsetIndex
import DexGraph.Graph.Value
import DexGraph.Image
import DexGraph.Instruction.Format
import DexGraph.Instruction.Walk
import DexGraph.Layout
import DexGraph.OutputFile
import DexGraph.Proofs.Assembly.BodyReading
import DexGraph.Proofs.Assembly.CanonicalEntities
import DexGraph.Proofs.Assembly.CanonicalImage
import DexGraph.Proofs.Assembly.CapturedOffsets
import DexGraph.Proofs.Assembly.Changes
import DexGraph.Proofs.Assembly.ClassMembers
import DexGraph.Proofs.Assembly.Completion
import DexGraph.Proofs.Assembly.CopiedItems
import DexGraph.Proofs.Assembly.Counterparts
import DexGraph.Proofs.Assembly.Coverage
import DexGraph.Proofs.Assembly.Ensures
import DexGraph.Proofs.Assembly.Establishes
import DexGraph.Proofs.Assembly.Follows
import DexGraph.Proofs.Assembly.FreshChart
import DexGraph.Proofs.Assembly.FreshGraph
import DexGraph.Proofs.Assembly.HiddenApiSection
import DexGraph.Proofs.Assembly.Integrity
import DexGraph.Proofs.Assembly.Items
import DexGraph.Proofs.Assembly.Linked
import DexGraph.Proofs.Assembly.Links
import DexGraph.Proofs.Assembly.Lookups
import DexGraph.Proofs.Assembly.MethodHandles
import DexGraph.Proofs.Assembly.Navigation
import DexGraph.Proofs.Assembly.Oblivious
import DexGraph.Proofs.Assembly.PreservedImage
import DexGraph.Proofs.Assembly.Rereading
import DexGraph.Proofs.Assembly.Rewriting
import DexGraph.Proofs.Assembly.RoundTrip
import DexGraph.Proofs.Assembly.SharedHandlers
import DexGraph.Proofs.Assembly.Sharing
import DexGraph.Proofs.Assembly.Shown
import DexGraph.Proofs.Assembly.SortedOrder
import DexGraph.Proofs.Assembly.Survey
import DexGraph.Proofs.Assembly.Tables
import DexGraph.Proofs.Assembly.Valid
import DexGraph.Proofs.Assembly.ValueRanges
import DexGraph.Proofs.Assembly.WellFormed
import DexGraph.Proofs.Bytes.Cursor
import DexGraph.Proofs.Bytes.HoldsAt
import DexGraph.Proofs.Bytes.Leb128
import DexGraph.Proofs.Bytes.Leb128Outcome
import DexGraph.Proofs.Bytes.Reads
import DexGraph.Proofs.Bytes.Recovers
import DexGraph.Proofs.Bytes.StoredBytes
import DexGraph.Proofs.Checksum.Adler32
import DexGraph.Proofs.Codec.ClassDataShape
import DexGraph.Proofs.Codec.CodeRecovery
import DexGraph.Proofs.Codec.CodeShape
import DexGraph.Proofs.Codec.Concat
import DexGraph.Proofs.Codec.DebugInfoExtent
import DexGraph.Proofs.Codec.DebugInfoRecovery
import DexGraph.Proofs.Codec.Encodable
import DexGraph.Proofs.Codec.Entity
import DexGraph.Proofs.Codec.HandlerLists
import DexGraph.Proofs.Codec.Handlers
import DexGraph.Proofs.Codec.HiddenApiShape
import DexGraph.Proofs.Codec.LinearReading
import DexGraph.Proofs.Codec.Steady
import DexGraph.Proofs.Codec.ValueRecovery
import DexGraph.Proofs.Codec.ValueSize
import DexGraph.Proofs.Format.RowKinds
import DexGraph.Proofs.Format.Rows
import DexGraph.Proofs.Graph.Coherence
import DexGraph.Proofs.Graph.CrossReferences
import DexGraph.Proofs.Graph.Emitted
import DexGraph.Proofs.Graph.MethodOrder
import DexGraph.Proofs.Graph.OffsetIndex
import DexGraph.Proofs.Graph.References
import DexGraph.Proofs.Graph.Registry
import DexGraph.Proofs.Graph.Reordering
import DexGraph.Proofs.Instruction.Tiling
import DexGraph.Proofs.Instruction.Walk
import DexGraph.Proofs.Layout.Places
import DexGraph.Proofs.Text.ModifiedUtf8
import DexGraph.Proofs.Writing.Bodies
import DexGraph.Proofs.Writing.ClassFlags
import DexGraph.Proofs.Writing.ClassOrder
import DexGraph.Proofs.Writing.CodeOrder
import DexGraph.Proofs.Writing.Coupled
import DexGraph.Proofs.Writing.Establishes
import DexGraph.Proofs.Writing.Evaluation
import DexGraph.Proofs.Writing.Frame
import DexGraph.Proofs.Writing.Fresh
import DexGraph.Proofs.Writing.Geometry
import DexGraph.Proofs.Writing.HeaderFields
import DexGraph.Proofs.Writing.Independence
import DexGraph.Proofs.Writing.Items
import DexGraph.Proofs.Writing.Kept
import DexGraph.Proofs.Writing.MapEntries
import DexGraph.Proofs.Writing.MirroredRuns
import DexGraph.Proofs.Writing.Mirrors
import DexGraph.Proofs.Writing.Parts
import DexGraph.Proofs.Writing.Refusals
import DexGraph.Proofs.Writing.Relayout
import DexGraph.Proofs.Writing.Reload
import DexGraph.Proofs.Writing.Resized
import DexGraph.Proofs.Writing.Retrace
import DexGraph.Proofs.Writing.RowTables
import DexGraph.Proofs.Writing.Selection
import DexGraph.Proofs.Writing.SparseFile
import DexGraph.Proofs.Writing.Stamp
import DexGraph.Proofs.Writing.StoredBodies
import DexGraph.Proofs.Writing.StoredOffsets
import DexGraph.Proofs.Writing.Tables
import DexGraph.Proofs.Writing.Unplaced
import DexGraph.Section
import DexGraph.Text.ModifiedUtf8
import DexGraph.Text.Scan
import DexGraph.Text.Units
import DexGraph.Writing.Basic
import DexGraph.Writing.Buffer
import DexGraph.Writing.Code
import DexGraph.Writing.Image
import DexGraph.Writing.MapEntries
