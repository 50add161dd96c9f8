import ChipEight.Assembly.Draft
import ChipEight.Assembly.Error
import ChipEight.Assembly.Layout
import ChipEight.Assembly.SourceInstruction
import ChipEight.Assembly.Statement
import ChipEight.CommandLine.Arguments
import ChipEight.CommandLine.Assemble
import ChipEight.CommandLine.Disassemble
import ChipEight.CommandLine.Files
import ChipEight.CommandLine.Number
import ChipEight.CommandLine.Outcome
import ChipEight.ControlFlow
import ChipEight.Disassembly
import ChipEight.Exploration
import ChipEight.Fields
import ChipEight.Image
import ChipEight.Instruction
import ChipEight.Json
import ChipEight.Lexeme
import ChipEight.Listing
import ChipEight.Machine
import ChipEight.Main
import ChipEight.Mnemonic
import ChipEight.Numeral
import ChipEight.Opcode
import ChipEight.Position
import ChipEight.Program
import ChipEight.Report
import ChipEight.Shape
import ChipEight.Source
import ChipEight.Text.Blank
import ChipEight.Token
import ChipEight.Proofs.Basics
import ChipEight.Proofs.Exploration.Addresses
import ChipEight.Proofs.Exploration.Runs
import ChipEight.Proofs.Exploration.Reachability
import ChipEight.Proofs.Codec.Operands
import ChipEight.Proofs.Assembly.Clauses
import ChipEight.Proofs.Assembly.Drafts
import ChipEight.Proofs.Assembly.Emission
import ChipEight.Proofs.Assembly.Meaning
import ChipEight.Proofs.Listing.Clauses
import ChipEight.Proofs.Listing.RoundTrip
import ChipEight.Proofs.Assembly.Arrangement
import ChipEight.Proofs.Text.Writing
import ChipEight.Proofs.Assembly.LabelFree
import ChipEight.Proofs.Assembly.Bounded
import ChipEight.Proofs.Assembly.ImageSize
import ChipEight.Proofs.Exploration.Agreement
import ChipEight.Proofs.Listing.Unreached
import ChipEight.Proofs.Exploration.Edges
import ChipEight.Proofs.Exploration.Returns
import ChipEight.Proofs.Listing.Partition
import ChipEight.Proofs.Exploration.BranchLimit
import ChipEight.Proofs.Text.Division
import ChipEight.Proofs.Text.LineBreaks
import ChipEight.Proofs.Listing.Symbols
import ChipEight.Proofs.Exploration.Worklist
import ChipEight.Proofs.Codec.Bits
import ChipEight.Proofs.Codec.Refusals
import ChipEight.Proofs.Codec.Inverses
import ChipEight.Proofs.Assembly.Unresolved
import ChipEight.Proofs.Text.ByteOrder
import ChipEight.Proofs.Assembly.Consistency
import ChipEight.Proofs.CommandLine.Numbers
import ChipEight.Proofs.Listing.Annotation
import ChipEight.Proofs.Listing.Scan
import ChipEight.Proofs.Assembly.OverlappingCode
import ChipEight.Proofs.Assembly.Edits
