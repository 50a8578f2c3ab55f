import MightyAsm.Assemble
import MightyAsm.Cli.Argument
import MightyAsm.Cli.Command
import MightyAsm.Cli.Report
import MightyAsm.Cli.Run
import MightyAsm.Cli.Script
import MightyAsm.Diagnostic
import MightyAsm.Environment
import MightyAsm.Files.FileSystem
import MightyAsm.Files.OsError
import MightyAsm.Files.Path
import MightyAsm.InstructionSet
import MightyAsm.Main
import MightyAsm.Operand
import MightyAsm.Program.Basic
import MightyAsm.Program.Operands
import MightyAsm.Program.Resolution
import MightyAsm.Program.Rom
import MightyAsm.Proofs.AnyStatements
import MightyAsm.Proofs.Arguments
import MightyAsm.Proofs.Blame
import MightyAsm.Proofs.Branches
import MightyAsm.Proofs.CaseFree
import MightyAsm.Proofs.Command
import MightyAsm.Proofs.ConstForms
import MightyAsm.Proofs.Counters
import MightyAsm.Proofs.Decoding
import MightyAsm.Proofs.Definitions
import MightyAsm.Proofs.Distances
import MightyAsm.Proofs.Effects
import MightyAsm.Proofs.Emission
import MightyAsm.Proofs.Encoding
import MightyAsm.Proofs.FailFast
import MightyAsm.Proofs.Faults
import MightyAsm.Proofs.Files
import MightyAsm.Proofs.Hoisting
import MightyAsm.Proofs.Image
import MightyAsm.Proofs.Insertions
import MightyAsm.Proofs.Language
import MightyAsm.Proofs.Layout
import MightyAsm.Proofs.LetterCase
import MightyAsm.Proofs.Lines
import MightyAsm.Proofs.Listing
import MightyAsm.Proofs.Lists
import MightyAsm.Proofs.Literals
import MightyAsm.Proofs.Lockstep
import MightyAsm.Proofs.LookingBack
import MightyAsm.Proofs.Moving
import MightyAsm.Proofs.NewNames
import MightyAsm.Proofs.Numbering
import MightyAsm.Proofs.OneLine
import MightyAsm.Proofs.OperandForms
import MightyAsm.Proofs.OperandText
import MightyAsm.Proofs.Padding
import MightyAsm.Proofs.Places
import MightyAsm.Proofs.Precedence
import MightyAsm.Proofs.Prefixes
import MightyAsm.Proofs.Printing
import MightyAsm.Proofs.Rearranging
import MightyAsm.Proofs.Recasing
import MightyAsm.Proofs.References
import MightyAsm.Proofs.Relocation
import MightyAsm.Proofs.Renaming
import MightyAsm.Proofs.Rendering
import MightyAsm.Proofs.Replacing
import MightyAsm.Proofs.Reports
import MightyAsm.Proofs.Resolution
import MightyAsm.Proofs.Rewording
import MightyAsm.Proofs.Runs
import MightyAsm.Proofs.Sayings
import MightyAsm.Proofs.Shifting
import MightyAsm.Proofs.SideBySide
import MightyAsm.Proofs.Spacing
import MightyAsm.Proofs.Steps
import MightyAsm.Proofs.Table
import MightyAsm.Proofs.TokenOrder
import MightyAsm.Proofs.Words
import MightyAsm.Register
import MightyAsm.Source.Constant
import MightyAsm.Source.Fragment
import MightyAsm.Source.Instruction
import MightyAsm.Source.Line
import MightyAsm.Source.Span
import MightyAsm.Source.Token
import MightyAsm.SymbolTable
import MightyAsm.Text.Basic
import MightyAsm.Text.Blank
import MightyAsm.Text.Hex
import MightyAsm.Text.Identifier
