import ExprLang.CommandLine.Command
import ExprLang.CommandLine.Failure
import ExprLang.CommandLine.Flag
import ExprLang.CommandLine.Help
import ExprLang.CommandLine.Program
import ExprLang.Console.Conversation
import ExprLang.Console.Entry
import ExprLang.Console.History
import ExprLang.Console.Reply
import ExprLang.Expr.Basic
import ExprLang.Expr.Outline
import ExprLang.Expr.Parser
import ExprLang.Expr.Printer
import ExprLang.Expr.Reading
import ExprLang.Fault
import ExprLang.Files.Fault
import ExprLang.Files.Path
import ExprLang.Files.Store
import ExprLang.Host.Basic
import ExprLang.Host.Workspace
import ExprLang.Interpreter.Machine
import ExprLang.Interpreter.Session
import ExprLang.Interpreter.State
import ExprLang.Log
import ExprLang.Main
import ExprLang.Proofs.Console.Entries
import ExprLang.Proofs.Environment
import ExprLang.Proofs.Expr.Chains
import ExprLang.Proofs.Expr.Completion
import ExprLang.Proofs.Expr.Conservation
import ExprLang.Proofs.Expr.Contexts
import ExprLang.Proofs.Expr.Descent
import ExprLang.Proofs.Expr.FirstFault
import ExprLang.Proofs.Expr.Flat
import ExprLang.Proofs.Expr.Joined
import ExprLang.Proofs.Expr.Moves
import ExprLang.Proofs.Expr.Normal
import ExprLang.Proofs.Expr.Progress
import ExprLang.Proofs.Expr.Resumption
import ExprLang.Proofs.Expr.RoundTrip
import ExprLang.Proofs.Expr.Shape
import ExprLang.Proofs.Expr.Spelling
import ExprLang.Proofs.Fault
import ExprLang.Proofs.Interpreter.Arrays
import ExprLang.Proofs.Interpreter.Batches
import ExprLang.Proofs.Interpreter.CallFence
import ExprLang.Proofs.Interpreter.FlatLoops
import ExprLang.Proofs.Interpreter.Frame
import ExprLang.Proofs.Interpreter.Lockstep
import ExprLang.Proofs.Interpreter.LoopFence
import ExprLang.Proofs.Interpreter.Pieces
import ExprLang.Proofs.Interpreter.Purity
import ExprLang.Proofs.Interpreter.References
import ExprLang.Proofs.Interpreter.Relocation
import ExprLang.Proofs.Interpreter.Restart
import ExprLang.Proofs.Interpreter.Sessions
import ExprLang.Proofs.Interpreter.Steps
import ExprLang.Proofs.Interpreter.Termination
import ExprLang.Proofs.Scope
import ExprLang.Proofs.Text.Order
import ExprLang.Proofs.Text.Utf8
import ExprLang.Proofs.Settings.Overlay
import ExprLang.Proofs.Settings.RoundTrip
import ExprLang.Proofs.Token.Drafts
import ExprLang.Proofs.Token.Layout
import ExprLang.Proofs.Token.Lexemes
import ExprLang.Proofs.Token.Marks
import ExprLang.Proofs.Token.Places
import ExprLang.Proofs.Token.Rejection
import ExprLang.Proofs.Token.Runs
import ExprLang.Proofs.Token.Scanned
import ExprLang.Proofs.Token.Tape
import ExprLang.Proofs.Value.Arithmetic
import ExprLang.Proofs.Value.Equality
import ExprLang.Proofs.Yaml.Cursor
import ExprLang.Proofs.Yaml.Documents
import ExprLang.Proofs.Yaml.Encoding
import ExprLang.Proofs.Yaml.Folding
import ExprLang.Proofs.Yaml.Mappings
import ExprLang.Proofs.Yaml.Meanings
import ExprLang.Proofs.Yaml.Plain
import ExprLang.Proofs.Yaml.Queue
import ExprLang.Proofs.Yaml.Quoted
import ExprLang.Proofs.Yaml.Reader
import ExprLang.Proofs.Yaml.Values
import ExprLang.Scope
import ExprLang.Settings.Basic
import ExprLang.Settings.Document
import ExprLang.Source.Position
import ExprLang.Table
import ExprLang.Text.Base64
import ExprLang.Text.Blank
import ExprLang.Text.Case
import ExprLang.Text.Control
import ExprLang.Text.Line
import ExprLang.Text.Numeral
import ExprLang.Text.Outline
import ExprLang.Text.Printable
import ExprLang.Text.Quoted
import ExprLang.Text.Utf8
import ExprLang.Token.Basic
import ExprLang.Token.Cursor
import ExprLang.Token.Outline
import ExprLang.Token.Scanner
import ExprLang.Value
import ExprLang.Yaml.Cursor
import ExprLang.Yaml.Encoding
import ExprLang.Yaml.Lexeme.Basic
import ExprLang.Yaml.Lexeme.Property
import ExprLang.Yaml.Lexeme.Queue
import ExprLang.Yaml.Lexeme.Text
import ExprLang.Yaml.Node
import ExprLang.Yaml.Reader
import ExprLang.Yaml.Scalar
import ExprLang.Yaml.Writer
