import GoldenTrace.Directory
import GoldenTrace.Main
import GoldenTrace.Proofs.Agreement
import GoldenTrace.Proofs.Account
import GoldenTrace.Proofs.Numeral
import GoldenTrace.Proofs.Json.Lexing
import GoldenTrace.Proofs.Json.Parsing
import GoldenTrace.Proofs.Json.Faithful
import GoldenTrace.Proofs.Json.Objects
import GoldenTrace.Proofs.Descriptor.Codec
import GoldenTrace.Proofs.Command.Codec
import GoldenTrace.Proofs.Fixture
import GoldenTrace.Proofs.Utf8
import GoldenTrace.Proofs.Instruction.Targets
import GoldenTrace.Proofs.Segments
import GoldenTrace.Proofs.Command.Cycles
import GoldenTrace.Proofs.Text
import GoldenTrace.Proofs.Command.Text
import GoldenTrace.Proofs.Capture
import GoldenTrace.Proofs.Names
import GoldenTrace.Proofs.Pipeline
import GoldenTrace.Proofs.Recording
import GoldenTrace.Proofs.Descriptor.Encoding
import GoldenTrace.Proofs.Instruction.Operands
import GoldenTrace.Proofs.Rearrangement
import GoldenTrace.Proofs.Instruction.Cycles
import GoldenTrace.Proofs.Duration
import GoldenTrace.Proofs.Branch
import GoldenTrace.Proofs.Load
import GoldenTrace.Proofs.Subroutine
import GoldenTrace.Proofs.FlagRegister
import GoldenTrace.Proofs.Observation
import GoldenTrace.Proofs.FlagWrites
import GoldenTrace.Proofs.Recognition
import GoldenTrace.Proofs.Alu.Adder
import GoldenTrace.Proofs.Command.Grammar
import GoldenTrace.Proofs.Arithmetic8
import GoldenTrace.Proofs.FlagState
import GoldenTrace.Proofs.Stack
import GoldenTrace.Proofs.Alu.Decimal
import GoldenTrace.Proofs.Arithmetic16
import GoldenTrace.Proofs.Alu.Rotation
import GoldenTrace.Proofs.SingleBits
import GoldenTrace.Proofs.Verdict
import GoldenTrace.Proofs.Arguments
import GoldenTrace.Proofs.Exclusion
import GoldenTrace.Proofs.Refusals
import GoldenTrace.Proofs.MachineCode
import GoldenTrace.Proofs.Selection
import GoldenTrace.Proofs.Instruction.Shapes
import GoldenTrace.Proofs.Immediates
import GoldenTrace.Proofs.Standing
import GoldenTrace.Proofs.Listing
import GoldenTrace.Proofs.Directory
import GoldenTrace.Proofs.Generation
import GoldenTrace.Proofs.Json.Reordering
import GoldenTrace.Proofs.Json.Edits
import GoldenTrace.Proofs.Descriptor.Presentation
