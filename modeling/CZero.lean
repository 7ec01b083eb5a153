import CZero.Binary64.Basic
import CZero.Binary64.Decimal
import CZero.Binary64.Shortest
import CZero.Code.Instr
import CZero.Code.Opcode
import CZero.CommandLine.Build
import CZero.CommandLine.Options
import CZero.CommandLine.Path
import CZero.Compiler
import CZero.Diagnostic
import CZero.Image.Assemble
import CZero.Image.Basic
import CZero.Image.Listing
import CZero.Image.Read
import CZero.Image.Write
import CZero.Library
import CZero.Lowering.Context
import CZero.Lowering.Expr
import CZero.Lowering.Program
import CZero.Lowering.Stmt
import CZero.Machine.Console
import CZero.Machine.Fault
import CZero.Machine.Run
import CZero.Machine.State
import CZero.Machine.Step
import CZero.Main
import CZero.Position
import CZero.Proofs.Codegen.Branches
import CZero.Proofs.Codegen.Expr
import CZero.Proofs.Codegen.Flow
import CZero.Proofs.Codegen.Marked
import CZero.Proofs.Codegen.Program
import CZero.Proofs.Codegen.References
import CZero.Proofs.Codegen.Scope
import CZero.Proofs.Codegen.Size
import CZero.Proofs.Codegen.Spans
import CZero.Proofs.Codegen.Stmt
import CZero.Proofs.Grammar.Basic
import CZero.Proofs.Grammar.Choice
import CZero.Proofs.Grammar.Descent
import CZero.Proofs.Grammar.Language
import CZero.Proofs.Grammar.Parser
import CZero.Proofs.Grammar.Reading
import CZero.Proofs.Grammar.Scanned
import CZero.Proofs.Grammar.Size
import CZero.Proofs.Grammar.Unique
import CZero.Proofs.Grammar.Words
import CZero.Proofs.Image.Canonical
import CZero.Proofs.Image.Compact
import CZero.Proofs.Image.Faults
import CZero.Proofs.Image.Reading
import CZero.Proofs.Image.RoundTrip
import CZero.Proofs.Lowering.Branches
import CZero.Proofs.Lowering.Checked
import CZero.Proofs.Lowering.Constants
import CZero.Proofs.Lowering.Context
import CZero.Proofs.Lowering.Contract
import CZero.Proofs.Lowering.ControlFlow
import CZero.Proofs.Lowering.Expr
import CZero.Proofs.Lowering.Faults
import CZero.Proofs.Lowering.Holes
import CZero.Proofs.Lowering.Image
import CZero.Proofs.Lowering.Lexical
import CZero.Proofs.Lowering.Numbering
import CZero.Proofs.Lowering.Outcome
import CZero.Proofs.Lowering.Patching
import CZero.Proofs.Lowering.Program
import CZero.Proofs.Lowering.Roster
import CZero.Proofs.Lowering.Sentence
import CZero.Proofs.Lowering.Source
import CZero.Proofs.Lowering.Stmt
import CZero.Proofs.Lowering.Stored
import CZero.Proofs.Machine.Bounded
import CZero.Proofs.Machine.Contract
import CZero.Proofs.Machine.Faults
import CZero.Proofs.Machine.Interference
import CZero.Proofs.Machine.Limit
import CZero.Proofs.Machine.Marks
import CZero.Proofs.Machine.Move
import CZero.Proofs.Machine.Overflow
import CZero.Proofs.Machine.Range
import CZero.Proofs.Machine.Reach
import CZero.Proofs.Machine.Sound
import CZero.Proofs.Machine.Steps
import CZero.Proofs.Machine.Values
import CZero.Proofs.OnePass.Agreement
import CZero.Proofs.OnePass.Expr
import CZero.Proofs.OnePass.Pace
import CZero.Proofs.OnePass.Program
import CZero.Proofs.OnePass.Routines
import CZero.Proofs.OnePass.Staff
import CZero.Proofs.OnePass.Stmt
import CZero.Proofs.Preservation.Call
import CZero.Proofs.Preservation.Expr
import CZero.Proofs.Preservation.Names
import CZero.Proofs.Preservation.Program
import CZero.Proofs.Preservation.Room
import CZero.Proofs.Preservation.Scene
import CZero.Proofs.Preservation.Simulation
import CZero.Proofs.Preservation.Source
import CZero.Proofs.Preservation.Stmt
import CZero.Proofs.Renaming.Basic
import CZero.Proofs.Renaming.Compile
import CZero.Proofs.Renaming.Lower
import CZero.Proofs.Renaming.Parse
import CZero.Proofs.Renaming.Table
import CZero.Proofs.Semantics.Balanced
import CZero.Proofs.Semantics.Eval
import CZero.Proofs.Semantics.Integer
import CZero.Proofs.Static.Legal
import CZero.Proofs.Static.Program
import CZero.Proofs.Static.Rules
import CZero.Proofs.Symbol.Layers
import CZero.Proofs.Symbol.Purge
import CZero.Proofs.Symbol.View
import CZero.Proofs.Token.Language
import CZero.Proofs.Token.Literals
import CZero.Proofs.Token.Longest
import CZero.Proofs.Token.Place
import CZero.Proofs.Token.Requests
import CZero.Proofs.Token.Spelling
import CZero.Proofs.Token.Stream
import CZero.Proofs.Token.Trivia
import CZero.Report
import CZero.Symbol.Basic
import CZero.Symbol.Listing
import CZero.Symbol.Table
import CZero.Text.Blank
import CZero.Text.Column
import CZero.Text.Json
import CZero.Text.Printable
import CZero.Text.Quoted
import CZero.Token.Basic
import CZero.Token.Feed
import CZero.Token.Lexer
import CZero.Token.Scan
import CZero.Tree.Basic
import CZero.Tree.Parse.Basic
import CZero.Tree.Parse.Expr
import CZero.Tree.Parse.Program
import CZero.Tree.Parse.Stmt
import CZero.Ty
