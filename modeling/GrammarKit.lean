import GrammarKit.Ast.Arena
import GrammarKit.Ast.Drawing
import GrammarKit.Ast.EvalError
import GrammarKit.Ast.Node
import GrammarKit.Calc.Eval
import GrammarKit.Calc.Syntax
import GrammarKit.Calc.Token
import GrammarKit.Cli.Command
import GrammarKit.Cli.Interaction
import GrammarKit.Cli.Options
import GrammarKit.Decimal.Binary64
import GrammarKit.Decimal.Digits
import GrammarKit.Decimal.Reading
import GrammarKit.Decimal.Shortest
import GrammarKit.Files.Path
import GrammarKit.Files.Tree
import GrammarKit.Grammar.Attempt
import GrammarKit.Grammar.Basic
import GrammarKit.Grammar.Expr
import GrammarKit.Grammar.Outcome
import GrammarKit.Grammar.Parse
import GrammarKit.Grammar.Production
import GrammarKit.Grammar.RuleId
import GrammarKit.Language
import GrammarKit.Lexer.Buffer
import GrammarKit.Lexer.Cursor
import GrammarKit.Lexer.Matcher
import GrammarKit.Lexer.Table
import GrammarKit.Lexer.Token
import GrammarKit.Main
import GrammarKit.Making
import GrammarKit.Pascal.Run
import GrammarKit.Pascal.Store
import GrammarKit.Pascal.Syntax
import GrammarKit.Pascal.Token
import GrammarKit.Proofs.Acceptance
import GrammarKit.Proofs.Agreement
import GrammarKit.Proofs.Ahead
import GrammarKit.Proofs.Arena
import GrammarKit.Proofs.Backtracking
import GrammarKit.Proofs.ByteOrder
import GrammarKit.Proofs.Calc.Custody
import GrammarKit.Proofs.Calc.Evaluation
import GrammarKit.Proofs.Calc.Exactness
import GrammarKit.Proofs.Calc.Grammar
import GrammarKit.Proofs.Calc.InOrder
import GrammarKit.Proofs.Calc.Lexing
import GrammarKit.Proofs.Calc.NumberChains
import GrammarKit.Proofs.Calc.Printing
import GrammarKit.Proofs.Chains
import GrammarKit.Proofs.Cli.Arguments
import GrammarKit.Proofs.Cli.Effects
import GrammarKit.Proofs.Combinators
import GrammarKit.Proofs.Conservation
import GrammarKit.Proofs.Coupling
import GrammarKit.Proofs.CursorPlaces
import GrammarKit.Proofs.Custody
import GrammarKit.Proofs.Derivation
import GrammarKit.Proofs.Display
import GrammarKit.Proofs.Embedding
import GrammarKit.Proofs.Failing
import GrammarKit.Proofs.Files
import GrammarKit.Proofs.FirstFault
import GrammarKit.Proofs.Grounded
import GrammarKit.Proofs.LeftRecursion
import GrammarKit.Proofs.LetterCase
import GrammarKit.Proofs.Lexing
import GrammarKit.Proofs.Lookahead
import GrammarKit.Proofs.Making
import GrammarKit.Proofs.Merging
import GrammarKit.Proofs.Nullability
import GrammarKit.Proofs.Obliviousness
import GrammarKit.Proofs.Outlook
import GrammarKit.Proofs.Ownership
import GrammarKit.Proofs.Parsed
import GrammarKit.Proofs.Pascal.Actions
import GrammarKit.Proofs.Pascal.Classification
import GrammarKit.Proofs.Pascal.Custody
import GrammarKit.Proofs.Pascal.Grammar
import GrammarKit.Proofs.Pascal.LetterCase
import GrammarKit.Proofs.Pascal.Lexing
import GrammarKit.Proofs.Pascal.Printing
import GrammarKit.Proofs.Pascal.Programs
import GrammarKit.Proofs.Pascal.Reading
import GrammarKit.Proofs.Pascal.Sessions
import GrammarKit.Proofs.Pascal.Tables
import GrammarKit.Proofs.Peg
import GrammarKit.Proofs.Predictive
import GrammarKit.Proofs.Quoting
import GrammarKit.Proofs.Recognition
import GrammarKit.Proofs.Recursion
import GrammarKit.Proofs.Remainder
import GrammarKit.Proofs.Respacing
import GrammarKit.Proofs.Returning
import GrammarKit.Proofs.Running
import GrammarKit.Proofs.Schema
import GrammarKit.Proofs.SelectiveRecording
import GrammarKit.Proofs.Simulation
import GrammarKit.Proofs.Sorts
import GrammarKit.Proofs.Spelling
import GrammarKit.Proofs.StreamIndependence
import GrammarKit.Proofs.Termination
import GrammarKit.Proofs.Tiling
import GrammarKit.Proofs.TokenLines
import GrammarKit.Proofs.Transcription
import GrammarKit.Proofs.Translation
import GrammarKit.Proofs.Transparency
import GrammarKit.Proofs.Validation
import GrammarKit.Proofs.Visiting
import GrammarKit.Proofs.WholeText
import GrammarKit.Stream
import GrammarKit.Text.ByteClass
import GrammarKit.Text.Input
