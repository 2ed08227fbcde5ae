import MethodAssembler.Artifact
import MethodAssembler.Branch
import MethodAssembler.Bytes
import MethodAssembler.CommandLine.Arguments
import MethodAssembler.CommandLine.Host
import MethodAssembler.CommandLine.Inspection
import MethodAssembler.CommandLine.Run
import MethodAssembler.Config
import MethodAssembler.Config.Document
import MethodAssembler.Description.Basic
import MethodAssembler.Description.Compile
import MethodAssembler.Description.Document
import MethodAssembler.Encoder
import MethodAssembler.Error
import MethodAssembler.Event
import MethodAssembler.Fault
import MethodAssembler.FileTree
import MethodAssembler.FillArray
import MethodAssembler.Frame
import MethodAssembler.Image
import MethodAssembler.InstrList
import MethodAssembler.Instruction
import MethodAssembler.InvokeKind
import MethodAssembler.Json.Decode
import MethodAssembler.Json.Printer
import MethodAssembler.Json.Reader
import MethodAssembler.Json.Value
import MethodAssembler.Layout
import MethodAssembler.Leb128
import MethodAssembler.LiteralPool
import MethodAssembler.Main
import MethodAssembler.MappingTable.Basic
import MethodAssembler.MappingTable.Verify
import MethodAssembler.MethodUnit.Assembly
import MethodAssembler.MethodUnit.Basic
import MethodAssembler.Numerals
import MethodAssembler.Patch
import MethodAssembler.Proofs.Acceptance
import MethodAssembler.Proofs.Acceptance.Filling
import MethodAssembler.Proofs.Acceptance.Switches
import MethodAssembler.Proofs.Agreement
import MethodAssembler.Proofs.Calls
import MethodAssembler.Proofs.CaseLabels
import MethodAssembler.Proofs.CodeImage
import MethodAssembler.Proofs.DataRanges
import MethodAssembler.Proofs.DiagnosticOptions
import MethodAssembler.Proofs.Draft
import MethodAssembler.Proofs.FailedCompilation
import MethodAssembler.Proofs.FileTree
import MethodAssembler.Proofs.FillArrayImage
import MethodAssembler.Proofs.Filling
import MethodAssembler.Proofs.FrameSize
import MethodAssembler.Proofs.InputOrder
import MethodAssembler.Proofs.Inspection
import MethodAssembler.Proofs.Installation
import MethodAssembler.Proofs.InstrList.Checking
import MethodAssembler.Proofs.InstrList.Operations
import MethodAssembler.Proofs.InstrList.Reachable
import MethodAssembler.Proofs.InstrList.Refinement
import MethodAssembler.Proofs.InstrList.Sequence
import MethodAssembler.Proofs.InstructionRanges
import MethodAssembler.Proofs.LaidMethod
import MethodAssembler.Proofs.Layout
import MethodAssembler.Proofs.Leb128
import MethodAssembler.Proofs.Leb128.Codec
import MethodAssembler.Proofs.Leb128.Decoding
import MethodAssembler.Proofs.Leb128.Forms
import MethodAssembler.Proofs.Leb128.Streams
import MethodAssembler.Proofs.LinkedTargets
import MethodAssembler.Proofs.LiteralImage
import MethodAssembler.Proofs.LiteralPool
import MethodAssembler.Proofs.LoadedConstants
import MethodAssembler.Proofs.MappingTable
import MethodAssembler.Proofs.MappingTable.Catches
import MethodAssembler.Proofs.MappingTable.Grammar
import MethodAssembler.Proofs.MappingTable.RoundTrip
import MethodAssembler.Proofs.MappingTable.Verification
import MethodAssembler.Proofs.Offsets
import MethodAssembler.Proofs.Outline
import MethodAssembler.Proofs.Patches
import MethodAssembler.Proofs.Placement
import MethodAssembler.Proofs.PreciseCollection
import MethodAssembler.Proofs.RecordedPatches
import MethodAssembler.Proofs.ReferenceMap.Accepted
import MethodAssembler.Proofs.ReferenceMap.Declared
import MethodAssembler.Proofs.ReferenceMap.FreeSlots
import MethodAssembler.Proofs.ReferenceMap.Native
import MethodAssembler.Proofs.ReferenceMap.Readable
import MethodAssembler.Proofs.ReferenceMap.Records
import MethodAssembler.Proofs.ReferenceMap.Verifier
import MethodAssembler.Proofs.RegisterTables
import MethodAssembler.Proofs.Resolution
import MethodAssembler.Proofs.RetainedNops
import MethodAssembler.Proofs.SharedTables
import MethodAssembler.Proofs.SortedWords
import MethodAssembler.Proofs.SourceMapping
import MethodAssembler.Proofs.Stateful
import MethodAssembler.Proofs.StoredArtifacts
import MethodAssembler.Proofs.StreamLayout
import MethodAssembler.Proofs.SwitchDispatch
import MethodAssembler.Proofs.SwitchOrigins
import MethodAssembler.Proofs.SwitchPayload.Cases
import MethodAssembler.Proofs.SwitchPayload.Parsing
import MethodAssembler.Proofs.SwitchPayload.Words
import MethodAssembler.Proofs.WideConstants
import MethodAssembler.Proofs.Words
import MethodAssembler.ReferenceMap.Native
import MethodAssembler.ReferenceMap.Verifier
import MethodAssembler.SortedWords
import MethodAssembler.SwitchTable
import MethodAssembler.Text
import MethodAssembler.Toml.Document
import MethodAssembler.Toml.Scalar
import MethodAssembler.Toml.Scanner
import MethodAssembler.Toml.Value
import MethodAssembler.VmapTable
