import Assembler6502.Arena
import Assembler6502.Assembly
import Assembler6502.Charmap
import Assembler6502.CommandLine.Arguments
import Assembler6502.CommandLine.Plan
import Assembler6502.CommandLine.Survey
import Assembler6502.Cpu
import Assembler6502.Diagnostics
import Assembler6502.Disassembly
import Assembler6502.Encoding
import Assembler6502.Environment
import Assembler6502.Expr.Basic
import Assembler6502.Expr.Evaluation
import Assembler6502.Expr.Reader
import Assembler6502.Expr.Stored
import Assembler6502.Fault
import Assembler6502.FileSystem
import Assembler6502.FileTree
import Assembler6502.Fragment
import Assembler6502.Image
import Assembler6502.Instruction
import Assembler6502.Item
import Assembler6502.Location
import Assembler6502.LogLevel
import Assembler6502.MacroTable
import Assembler6502.Main
import Assembler6502.Mnemonic
import Assembler6502.Mode
import Assembler6502.Pass.Basic
import Assembler6502.Pass.Expansion
import Assembler6502.Pass.Resolution
import Assembler6502.Pass.Selection
import Assembler6502.Pass.Sweep
import Assembler6502.Path
import Assembler6502.Program
import Assembler6502.Source.Parser
import Assembler6502.Source.Phrase
import Assembler6502.Source.Reading
import Assembler6502.Stage
import Assembler6502.Symbol
import Assembler6502.Table
import Assembler6502.Text.Blank
import Assembler6502.Text.CaseTable
import Assembler6502.Text.Lowercase
import Assembler6502.Text.Numeral
import Assembler6502.Token.Basic
import Assembler6502.Token.Scanner
import Assembler6502.Value
import Assembler6502.Proofs.Computations
import Assembler6502.Proofs.TokenLines
import Assembler6502.Proofs.LineGrammar
import Assembler6502.Proofs.Parsing
import Assembler6502.Proofs.LineReading
import Assembler6502.Proofs.Layout
import Assembler6502.Proofs.Placement
import Assembler6502.Proofs.Tracking
import Assembler6502.Proofs.Emission
import Assembler6502.Proofs.Extension
import Assembler6502.Proofs.Rounds
import Assembler6502.Proofs.Convergence
import Assembler6502.Proofs.Conservativity
import Assembler6502.Proofs.Relocation
import Assembler6502.Proofs.Positions
import Assembler6502.Proofs.History
import Assembler6502.Proofs.KeptBranches
import Assembler6502.Proofs.Validity
import Assembler6502.Proofs.Scopes
import Assembler6502.Proofs.Recoding
import Assembler6502.Proofs.Faithfulness
import Assembler6502.Proofs.KnownLabels
import Assembler6502.Proofs.Trial
import Assembler6502.Proofs.Discovery
import Assembler6502.Proofs.Bindings
import Assembler6502.Proofs.Written
import Assembler6502.Proofs.Widths
import Assembler6502.Proofs.Numerals
import Assembler6502.Proofs.Codec
import Assembler6502.Proofs.Spelling
import Assembler6502.Proofs.Listing
import Assembler6502.Proofs.Expansion
import Assembler6502.Proofs.Reach
import Assembler6502.Proofs.Reassembly
import Assembler6502.Proofs.Readers
import Assembler6502.Proofs.LowerCase
import Assembler6502.Proofs.Names
import Assembler6502.Proofs.Calls
import Assembler6502.Proofs.Hygiene
import Assembler6502.Proofs.MissingArguments
import Assembler6502.Proofs.Holding
import Assembler6502.Proofs.Readings
import Assembler6502.Proofs.Reports
import Assembler6502.Proofs.InternalFaults
import Assembler6502.Proofs.Offsets
import Assembler6502.Proofs.Likeness
import Assembler6502.Proofs.Numbering
import Assembler6502.Proofs.Tours
import Assembler6502.Proofs.Arena
import Assembler6502.Proofs.Indifference
import Assembler6502.Proofs.Nesting
import Assembler6502.Proofs.Surroundings
import Assembler6502.Proofs.Lexemes
import Assembler6502.Proofs.Resemblance
import Assembler6502.Proofs.Scanning
import Assembler6502.Proofs.Rereading
import Assembler6502.Proofs.Origin
import Assembler6502.Proofs.PhysicalLines
import Assembler6502.Proofs.LineByLine
import Assembler6502.Proofs.Standstill
import Assembler6502.Proofs.Ratchet
import Assembler6502.Proofs.Printing
import Assembler6502.Proofs.Constants
import Assembler6502.Proofs.Directives
import Assembler6502.Proofs.FileParts
import Assembler6502.Proofs.ExtensionDepth
import Assembler6502.Proofs.Accounting
import Assembler6502.Proofs.Filler
import Assembler6502.Proofs.Resolvability
import Assembler6502.Proofs.MacroHistory
import Assembler6502.Proofs.Extraction
import Assembler6502.Proofs.Duplicates
import Assembler6502.Proofs.Complaints
import Assembler6502.Proofs.Inclusion
import Assembler6502.Proofs.EnvironmentHistory
import Assembler6502.Proofs.Occurrence
import Assembler6502.Proofs.Arithmetic
import Assembler6502.Proofs.DataValues
import Assembler6502.Proofs.StringLiterals
import Assembler6502.Proofs.Places
import Assembler6502.Proofs.References
import Assembler6502.Proofs.AnonymousLabels
import Assembler6502.Proofs.QuietUpdates
import Assembler6502.Proofs.Radices
import Assembler6502.Proofs.CharacterMaps
