import JackSyntax.Analysis
import JackSyntax.Command.Arguments
import JackSyntax.Command.Report
import JackSyntax.Command.Run
import JackSyntax.Cursor
import JackSyntax.Document
import JackSyntax.Files.FileSystem
import JackSyntax.Files.Path
import JackSyntax.Grammar.CallStack
import JackSyntax.Grammar.Expected
import JackSyntax.Grammar.Jack
import JackSyntax.Grammar.Outcome
import JackSyntax.Grammar.Parse
import JackSyntax.Grammar.Precedence
import JackSyntax.Grammar.Rule
import JackSyntax.Grammar.SyntaxError
import JackSyntax.Main
import JackSyntax.Session
import JackSyntax.Proofs.Grammar.Productions
import JackSyntax.Proofs.Operators.Climbing
import JackSyntax.Proofs.Operators.Grouping
import JackSyntax.Proofs.Reading.Progress
import JackSyntax.Proofs.Trees.Walks
import JackSyntax.Source.Character
import JackSyntax.Source.Front
import JackSyntax.Source.Position
import JackSyntax.Source.Scan
import JackSyntax.Text.DecimalDigit
import JackSyntax.Text.Newline
import JackSyntax.Text.Printable
import JackSyntax.Text.Quoted
import JackSyntax.Text.Utf8
import JackSyntax.Token.Basic
import JackSyntax.Token.Vocabulary
import JackSyntax.Tree.Basic
import JackSyntax.Tree.Edit
import JackSyntax.Tree.Outline
import JackSyntax.Tree.Walk
import JackSyntax.Proofs.Grammar.Soundness
import JackSyntax.Proofs.Reading.Comparison
import JackSyntax.Proofs.Operators.Splitting
import JackSyntax.Proofs.Operators.Regrouping
import JackSyntax.Proofs.Grammar.Lookahead
import JackSyntax.Proofs.Grammar.Completeness
import JackSyntax.Proofs.Reading.Faithfulness
import JackSyntax.Proofs.Source.Lexemes
import JackSyntax.Proofs.Source.Decomposition
import JackSyntax.Proofs.Source.Spelling
import JackSyntax.Proofs.Reading.Placement
import JackSyntax.Proofs.Source.Places
import JackSyntax.Proofs.Trees.Tokens
import JackSyntax.Proofs.Documents.Layout
import JackSyntax.Proofs.Documents.Decoding
import JackSyntax.Proofs.Documents.Lines
import JackSyntax.Proofs.Grammar.Expectations
import JackSyntax.Proofs.Reading.CorrectPrefix
import JackSyntax.Proofs.Reading.NextToken
import JackSyntax.Proofs.Source.Integers
import JackSyntax.Proofs.Reading.Sessions
import JackSyntax.Proofs.Command.AllOrNothing
import JackSyntax.Proofs.Source.Locality
import JackSyntax.Proofs.Source.Joining
import JackSyntax.Proofs.Source.Insertion
import JackSyntax.Proofs.Reading.Calls
import JackSyntax.Proofs.Source.LineEnds
import JackSyntax.Proofs.Reading.Nesting
import JackSyntax.Proofs.Trees.Tour
import JackSyntax.Proofs.Trees.Traversal
import JackSyntax.Proofs.Documents.Tour
import JackSyntax.Proofs.Files.Outputs
