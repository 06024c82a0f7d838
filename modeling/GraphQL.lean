import GraphQL.Binary64
import GraphQL.Command.Display
import GraphQL.Command.Environment
import GraphQL.Command.FileTree
import GraphQL.Command.Host
import GraphQL.Command.Invocation
import GraphQL.Command.Log
import GraphQL.Command.Outcome
import GraphQL.Command.Run
import GraphQL.Command.Scan
import GraphQL.Command.Validate
import GraphQL.Document
import GraphQL.Executable
import GraphQL.IndexedList
import GraphQL.IndexedList.Family
import GraphQL.Layout
import GraphQL.Layout.Document
import GraphQL.Layout.Executable
import GraphQL.Layout.TypeSystem
import GraphQL.Lexeme
import GraphQL.Lexeme.Ignored
import GraphQL.Lexeme.Number
import GraphQL.Lexeme.StringLiteral
import GraphQL.Lexer
import GraphQL.Node
import GraphQL.Parser.Basic
import GraphQL.Parser.Descent.Basic
import GraphQL.Parser.Descent.Document
import GraphQL.Parser.Descent.Executable
import GraphQL.Parser.Descent.TypeSystem
import GraphQL.Parser.Descent.Value
import GraphQL.Parser.Document
import GraphQL.Parser.Executable
import GraphQL.Parser.Repetition
import GraphQL.Parser.TypeSystem
import GraphQL.Parser.Value
import GraphQL.Proofs.Parser.Failure
import GraphQL.Proofs.RoundTrip
import GraphQL.Registry
import GraphQL.Schema
import GraphQL.Schema.Build
import GraphQL.SyntaxError
import GraphQL.Text.CharacterClass
import GraphQL.Text.Encoding
import GraphQL.Text.Location
import GraphQL.Text.Quoted
import GraphQL.Text.Trim
import GraphQL.Token
import GraphQL.TokenStream
import GraphQL.TokenStream.Buffered
import GraphQL.TypeReference
import GraphQL.TypeSystem
import GraphQL.Validation.Error
import GraphQL.Validation.Rule
import GraphQL.Value
import GraphQL.Value.Numeral
import GraphQL.Walker
import GraphQL.Main
import GraphQL.Proofs.Lexeme.Extent
import GraphQL.Proofs.Text.Lines
import GraphQL.Proofs.Lexer.Places
import GraphQL.Proofs.Registry
import GraphQL.Proofs.Validation.Definitions
import GraphQL.Proofs.Validation.Sdl
import GraphQL.Proofs.Schema.Merge
import GraphQL.Proofs.Schema.Extension
import GraphQL.Proofs.Schema.Printable
import GraphQL.Proofs.Schema.Reached
import GraphQL.Proofs.Schema.Accumulation
import GraphQL.Proofs.Schema.Steps
import GraphQL.Proofs.Schema.Rebuild
import GraphQL.Proofs.Walker.Nodes
import GraphQL.Proofs.Walker.Trace
import GraphQL.Proofs.Walker.Places
import GraphQL.Proofs.Walker.Printed
import GraphQL.Proofs.Walker.Entered
import GraphQL.Proofs.Walker.Traversal
import GraphQL.Proofs.Validation.Sharing
import GraphQL.Proofs.Validation.Alone
import GraphQL.Proofs.Validation.Executable
import GraphQL.Proofs.IndexedList.Sequences
import GraphQL.Proofs.Lexeme.Written
import GraphQL.Proofs.Lexer.Tiling
import GraphQL.Proofs.Lexer.Joined
import GraphQL.Proofs.Composition
import GraphQL.Proofs.Schema.Order
import GraphQL.Proofs.Lexeme.CodeUnits
import GraphQL.Proofs.Lexeme.NumberPattern
import GraphQL.Proofs.Lexer.Literals
import GraphQL.Proofs.Parser.Placeless
import GraphQL.Proofs.Parser.Placeless.Document
import GraphQL.Proofs.Lexer.Inserted
import GraphQL.Proofs.Schema.Roots
import GraphQL.Proofs.Parser.Raises
import GraphQL.Proofs.Parser.Raises.Document
import GraphQL.Proofs.Parser.Brackets
import GraphQL.Proofs.Parser.Unclosed
import GraphQL.Proofs.Lexeme.Unbroken
import GraphQL.Proofs.Parser.Underline
import GraphQL.Proofs.Command.Load
import GraphQL.Proofs.Command.Search
import GraphQL.Proofs.Command.Validate
import GraphQL.Proofs.TokenStream.Lookahead
import GraphQL.Proofs.Parser.Collected
import GraphQL.Proofs.Parser.Descent
import GraphQL.Proofs.Parser.Progress
import GraphQL.Proofs.Parser.Descent.Steps
import GraphQL.Proofs.Parser.Descent.Value
import GraphQL.Proofs.Parser.Descent.Executable
import GraphQL.Proofs.Parser.Descent.TypeSystem
import GraphQL.Proofs.Parser.Descent.Document
import GraphQL.Proofs.Parser.Descent.Construct
