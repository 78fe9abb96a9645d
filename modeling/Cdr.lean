import Cdr.Alignment
import Cdr.Entries
import Cdr.Graph.PostOrder
import Cdr.Idl
import Cdr.Json.Basic
import Cdr.Json.Printer
import Cdr.Json.Reader
import Cdr.Layout.Bridge
import Cdr.Layout.Native
import Cdr.Primitive
import Cdr.Proofs.Acceptance
import Cdr.Proofs.AlikeSchemas
import Cdr.Proofs.Assembly
import Cdr.Proofs.Boundaries
import Cdr.Proofs.Bounds
import Cdr.Proofs.BracketedText
import Cdr.Proofs.BridgeOffsets
import Cdr.Proofs.Canonical
import Cdr.Proofs.CaseLabels
import Cdr.Proofs.ComesBack
import Cdr.Proofs.Conforming
import Cdr.Proofs.ConformingSize
import Cdr.Proofs.CountCheck
import Cdr.Proofs.CountLimit
import Cdr.Proofs.Cycles
import Cdr.Proofs.DeclaredMembers
import Cdr.Proofs.DeclaredNames
import Cdr.Proofs.DefaultImage
import Cdr.Proofs.DependencyOrder
import Cdr.Proofs.Descents
import Cdr.Proofs.Discriminators
import Cdr.Proofs.DocumentText
import Cdr.Proofs.EmissionOrder
import Cdr.Proofs.EncodableDefaults
import Cdr.Proofs.Evolution
import Cdr.Proofs.FieldOrder
import Cdr.Proofs.Image
import Cdr.Proofs.ImageBytes
import Cdr.Proofs.ImageOrder
import Cdr.Proofs.JsonText
import Cdr.Proofs.KnownMembers
import Cdr.Proofs.LeafConformance
import Cdr.Proofs.LeafRoundTrip
import Cdr.Proofs.LeastCounted
import Cdr.Proofs.LeastSizes
import Cdr.Proofs.Limits
import Cdr.Proofs.Locality
import Cdr.Proofs.Lockstep
import Cdr.Proofs.LookAhead
import Cdr.Proofs.Metering
import Cdr.Proofs.ModuleNesting
import Cdr.Proofs.Nesting
import Cdr.Proofs.Obstacles
import Cdr.Proofs.OptionalMembers
import Cdr.Proofs.PaddedPositions
import Cdr.Proofs.PassDepth
import Cdr.Proofs.Periods
import Cdr.Proofs.Presence
import Cdr.Proofs.ReadAcross
import Cdr.Proofs.ReadBack
import Cdr.Proofs.ReadDepth
import Cdr.Proofs.ReadFaults
import Cdr.Proofs.ReaderInvariant
import Cdr.Proofs.ReaderSteps
import Cdr.Proofs.Renumbering
import Cdr.Proofs.RoundTrip
import Cdr.Proofs.Runs
import Cdr.Proofs.Script
import Cdr.Proofs.SinkReach
import Cdr.Proofs.SizeImage
import Cdr.Proofs.SliceSink
import Cdr.Proofs.StoredLayouts
import Cdr.Proofs.StructLayout
import Cdr.Proofs.Surfacing
import Cdr.Proofs.TypeOrder
import Cdr.Proofs.TypeRecursion
import Cdr.Proofs.TypeSpellings
import Cdr.Proofs.TypeText
import Cdr.Proofs.UnionArms
import Cdr.Proofs.UnionLayout
import Cdr.Proofs.Validity
import Cdr.Proofs.WellFormed
import Cdr.Proofs.WordLayouts
import Cdr.Proofs.WriteReach
import Cdr.Proofs.WriterImage
import Cdr.Representation
import Cdr.Schema.Basic
import Cdr.Schema.Compile
import Cdr.Schema.Declaration
import Cdr.Schema.DocumentJson
import Cdr.Schema.Error
import Cdr.Schema.TypeExpr
import Cdr.Text.Blank
import Cdr.Text.Numeral
import Cdr.Text.Utf8
import Cdr.Value.Basic
import Cdr.Value.Default
import Cdr.Value.Scalar
import Cdr.Wire.Arm
import Cdr.Wire.ByteOrder
import Cdr.Wire.Encoding
import Cdr.Wire.Error
import Cdr.Wire.Event
import Cdr.Wire.Limit
import Cdr.Wire.Payload
import Cdr.Wire.Reader
import Cdr.Wire.Sink
import Cdr.Wire.Size
import Cdr.Wire.Writer
