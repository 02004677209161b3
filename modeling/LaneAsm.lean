import LaneAsm.Assembler.Basic
import LaneAsm.Assembler.Lower
import LaneAsm.Assembler.Route
import LaneAsm.Backend
import LaneAsm.Buffer
import LaneAsm.Bytes
import LaneAsm.Catalog
import LaneAsm.Catalog.BuiltIn
import LaneAsm.Cli.Command
import LaneAsm.Cli.Flag
import LaneAsm.Cli.Job
import LaneAsm.Cli.Run
import LaneAsm.Cli.Settings
import LaneAsm.Condition
import LaneAsm.Disassembly
import LaneAsm.Elem
import LaneAsm.Emission
import LaneAsm.Encoder
import LaneAsm.Error
import LaneAsm.Error.Text
import LaneAsm.Golden.Basic
import LaneAsm.Golden.Diff
import LaneAsm.Golden.File
import LaneAsm.Host.Frame
import LaneAsm.Host.Run
import LaneAsm.Instances
import LaneAsm.Instr
import LaneAsm.Json.Basic
import LaneAsm.Json.Diff
import LaneAsm.Json.Parser
import LaneAsm.Label
import LaneAsm.Lane.Float
import LaneAsm.Lane.Integer
import LaneAsm.Lane.Vector
import LaneAsm.Listing.Assemble
import LaneAsm.Listing.Mnemonic
import LaneAsm.Listing.Operand
import LaneAsm.Listing.Parser
import LaneAsm.Listing.Printer
import LaneAsm.Log.Level
import LaneAsm.Log.Logger
import LaneAsm.Log.Record
import LaneAsm.Machine.Program
import LaneAsm.Machine.Run
import LaneAsm.Machine.State
import LaneAsm.Machine.Step
import LaneAsm.Main
import LaneAsm.Msa.Address
import LaneAsm.Msa.Backend
import LaneAsm.Msa.Decode
import LaneAsm.Msa.Insn
import LaneAsm.Msa.Select
import LaneAsm.Op
import LaneAsm.Operand.Basic
import LaneAsm.Operand.Check
import LaneAsm.Operand.Triplet
import LaneAsm.Plan.Basic
import LaneAsm.Plan.Expand
import LaneAsm.Primitive
import LaneAsm.Proofs.Bytes
import LaneAsm.Proofs.CompareRoute
import LaneAsm.Proofs.Halves
import LaneAsm.Proofs.LaneValue
import LaneAsm.Proofs.Lanes
import LaneAsm.Proofs.Lowering
import LaneAsm.Proofs.Machine
import LaneAsm.Proofs.Memory
import LaneAsm.Proofs.Recorded
import LaneAsm.Proofs.Run
import LaneAsm.Report.Matrix
import LaneAsm.Report.Outline
import LaneAsm.Report.Size
import LaneAsm.Report.Table
import LaneAsm.Report.Targets
import LaneAsm.Script.Basic
import LaneAsm.Script.Parser
import LaneAsm.Script.Token
import LaneAsm.Session
import LaneAsm.Target
import LaneAsm.Text.Blank
import LaneAsm.Text.Distance
import LaneAsm.Text.Dump
import LaneAsm.Text.Hex
import LaneAsm.Text.Integer
import LaneAsm.Text.Lower
import LaneAsm.Text.Pad
import LaneAsm.Text.Printable
import LaneAsm.Text.Quoted
import LaneAsm.Text.Split
import LaneAsm.Text.Symbol
import LaneAsm.Text.Utf8
import LaneAsm.Text.Wrap
import LaneAsm.Tools
import LaneAsm.X86.Backend
import LaneAsm.X86.Decode
import LaneAsm.X86.Expand
import LaneAsm.X86.Form
import LaneAsm.X86.Insn
import LaneAsm.X86.Select
import LaneAsm.X86.Sequence
import LaneAsm.Proofs.Widening
import LaneAsm.Proofs.X86.Memory
import LaneAsm.Proofs.X86.State
import LaneAsm.Proofs.X86.Lane
import LaneAsm.Proofs.X86.Sequence
import LaneAsm.Proofs.X86.Scratch
import LaneAsm.Proofs.X86.Groups
import LaneAsm.Proofs.X86.Expand
import LaneAsm.Proofs.X86.Select
import LaneAsm.Proofs.Msa.Selected
import LaneAsm.Proofs.X86.Selected
import LaneAsm.Proofs.Listing
import LaneAsm.Proofs.Patching
import LaneAsm.Proofs.Pieces
import LaneAsm.Proofs.Layout
import LaneAsm.Proofs.Branches
import LaneAsm.Proofs.X86.Decoding
import LaneAsm.Proofs.Relowering
import LaneAsm.Proofs.Transparency
import LaneAsm.Proofs.Text
import LaneAsm.Proofs.Listing.Operand
import LaneAsm.Proofs.Listing.RoundTrip
import LaneAsm.Proofs.Msa.Words
import LaneAsm.Proofs.Joining
import LaneAsm.Proofs.Drafting
import LaneAsm.Proofs.Listing.Program
import LaneAsm.Proofs.Composition
import LaneAsm.Proofs.X86.Chosen
import LaneAsm.Proofs.X86.Emitted
import LaneAsm.Proofs.X86.Levels
import LaneAsm.Proofs.X86.Reading
import LaneAsm.Proofs.X86.Disassembly
import LaneAsm.Proofs.Requests
import LaneAsm.Proofs.Failing
import LaneAsm.Proofs.Msa.Failing
import LaneAsm.Proofs.X86.Failing
import LaneAsm.Proofs.Leftover
import LaneAsm.Proofs.Supported
import LaneAsm.Proofs.Msa.Execution
import LaneAsm.Proofs.Msa.BaseValue
import LaneAsm.Proofs.Msa.BaseSimulation
import LaneAsm.Proofs.Sticky
import LaneAsm.Proofs.Shape
import LaneAsm.Proofs.Ledger
import LaneAsm.Proofs.Listing.Labels
import LaneAsm.Proofs.Session
import LaneAsm.Proofs.Accesses
import LaneAsm.Proofs.Msa.Addressing
import LaneAsm.Proofs.X86.Destructive
import LaneAsm.Proofs.X86.Merging
import LaneAsm.Proofs.LaneArithmetic
import LaneAsm.Proofs.Refinishing
import LaneAsm.Proofs.ForeignLabels
import LaneAsm.Proofs.Listing.Kept
import LaneAsm.Proofs.Lanewise
import LaneAsm.Proofs.ShiftCounts
import LaneAsm.Proofs.StepLimit
import LaneAsm.Proofs.Listing.Grammar
import LaneAsm.Proofs.Classification
import LaneAsm.Proofs.GoldenDrift
import LaneAsm.Proofs.Windows
