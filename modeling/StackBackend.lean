import StackBackend.Access
import StackBackend.Binary64
import StackBackend.Binary64.Arithmetic
import StackBackend.Bracket
import StackBackend.Bytes
import StackBackend.Cell
import StackBackend.CommandLine
import StackBackend.Decimal
import StackBackend.Decimal.Numeral
import StackBackend.Decimal.Places
import StackBackend.Decimal.Reader
import StackBackend.Decimal.Scaled
import StackBackend.Defect
import StackBackend.Environment
import StackBackend.Execution
import StackBackend.Format
import StackBackend.Fragment
import StackBackend.Frame
import StackBackend.Generator
import StackBackend.Heap
import StackBackend.Image
import StackBackend.Instruction
import StackBackend.Json
import StackBackend.Json.Reader
import StackBackend.Json.Writer
import StackBackend.Label
import StackBackend.Listing.Grammar
import StackBackend.Listing.Line
import StackBackend.Listing.Printer
import StackBackend.Listing.Quoted
import StackBackend.Listing.Reader
import StackBackend.Location
import StackBackend.Machine
import StackBackend.Main
import StackBackend.Memory
import StackBackend.Memory.Page
import StackBackend.Operator.Arithmetic
import StackBackend.Operator.Comparison
import StackBackend.Operator.HigherOrder
import StackBackend.Operator.Sequence
import StackBackend.Operator.Text
import StackBackend.Printing
import StackBackend.Proofs.Access
import StackBackend.Proofs.Allocation
import StackBackend.Proofs.ArgumentPassing
import StackBackend.Proofs.ArrayLiterals
import StackBackend.Proofs.Assembler
import StackBackend.Proofs.Assembling
import StackBackend.Proofs.Assembly
import StackBackend.Proofs.Balance
import StackBackend.Proofs.Blocks
import StackBackend.Proofs.BracketedCode
import StackBackend.Proofs.Brackets
import StackBackend.Proofs.ByteLoops
import StackBackend.Proofs.ByteRanges
import StackBackend.Proofs.Callbacks
import StackBackend.Proofs.Calling
import StackBackend.Proofs.Cells
import StackBackend.Proofs.Checked
import StackBackend.Proofs.Cloning
import StackBackend.Proofs.CompactNumerals
import StackBackend.Proofs.Comparison
import StackBackend.Proofs.Computation
import StackBackend.Proofs.Concatenation
import StackBackend.Proofs.Confinement
import StackBackend.Proofs.ConstructFlow
import StackBackend.Proofs.Correctness
import StackBackend.Proofs.Courses
import StackBackend.Proofs.DataLayout
import StackBackend.Proofs.DecimalRounding
import StackBackend.Proofs.Discard
import StackBackend.Proofs.Discipline
import StackBackend.Proofs.EnvironmentFlow
import StackBackend.Proofs.Evaluation
import StackBackend.Proofs.ExactArithmetic
import StackBackend.Proofs.FaultPositions
import StackBackend.Proofs.Filling
import StackBackend.Proofs.Filtering
import StackBackend.Proofs.Flow
import StackBackend.Proofs.Folding
import StackBackend.Proofs.ForLoops
import StackBackend.Proofs.FormattedOutput
import StackBackend.Proofs.Fraction
import StackBackend.Proofs.Generation
import StackBackend.Proofs.HeapHistory
import StackBackend.Proofs.HeapManager
import StackBackend.Proofs.Inscription
import StackBackend.Proofs.Invocation
import StackBackend.Proofs.Judging
import StackBackend.Proofs.Layout
import StackBackend.Proofs.Ledger
import StackBackend.Proofs.Legibility
import StackBackend.Proofs.Levels
import StackBackend.Proofs.LineStructure
import StackBackend.Proofs.Linking
import StackBackend.Proofs.ListingGrammar
import StackBackend.Proofs.Loading
import StackBackend.Proofs.LowestTerms
import StackBackend.Proofs.MixedNumbers
import StackBackend.Proofs.Numbering
import StackBackend.Proofs.Operands
import StackBackend.Proofs.OperatorFlow
import StackBackend.Proofs.OperatorSteps
import StackBackend.Proofs.Pieces
import StackBackend.Proofs.Plainness
import StackBackend.Proofs.Pointwise
import StackBackend.Proofs.PrintSteps
import StackBackend.Proofs.Printed
import StackBackend.Proofs.ProgramListing
import StackBackend.Proofs.PureFunctions
import StackBackend.Proofs.RationalArithmetic
import StackBackend.Proofs.RecordGraph
import StackBackend.Proofs.Reduction
import StackBackend.Proofs.Reentrancy
import StackBackend.Proofs.Reserving
import StackBackend.Proofs.Resolution
import StackBackend.Proofs.Reversal
import StackBackend.Proofs.RoundTrip
import StackBackend.Proofs.Run
import StackBackend.Proofs.Safety
import StackBackend.Proofs.Scalar
import StackBackend.Proofs.ScopeLayout
import StackBackend.Proofs.Sequences
import StackBackend.Proofs.Serial
import StackBackend.Proofs.Severing
import StackBackend.Proofs.Shape
import StackBackend.Proofs.Simulation
import StackBackend.Proofs.Sketches
import StackBackend.Proofs.StructuredPrinting
import StackBackend.Proofs.Substring
import StackBackend.Proofs.Successes
import StackBackend.Proofs.TextRecords
import StackBackend.Proofs.Tours
import StackBackend.Proofs.Tracking
import StackBackend.Proofs.TreeCodec
import StackBackend.Proofs.TreeFlow
import StackBackend.Proofs.TypedAccess
import StackBackend.Proofs.Typing
import StackBackend.Proofs.Words
import StackBackend.Record
import StackBackend.Report
import StackBackend.Rounding
import StackBackend.Scope
import StackBackend.Tree
import StackBackend.Tree.Builder
import StackBackend.Tree.Codec
import StackBackend.Ty
import StackBackend.Utf8
