import ActorLang.Command.Run
import ActorLang.Grammar
import ActorLang.Machine
import ActorLang.Main
import ActorLang.Parser.Program
import ActorLang.Proofs.Yield
import ActorLang.Settings.File
import ActorLang.Token.Lexer
import ActorLang.Token.Quoted
import ActorLang.Token.Stream
import ActorLang.Tree.Json
import ActorLang.Tree.Lint
import ActorLang.Tree.Outline
import ActorLang.Tree.Relocate
import ActorLang.Proofs.Parser.Artifact
import ActorLang.Proofs.Parser.Expr
import ActorLang.Proofs.Parser.Actor
import ActorLang.Proofs.Parser.Assignable
import ActorLang.Proofs.Parser.Program
import ActorLang.Proofs.Parser.Backtracking
import ActorLang.Proofs.Parser.Prediction
import ActorLang.Proofs.Parser.Flatten
import ActorLang.Proofs.Frontier
import ActorLang.Proofs.Grammar.Derivation
import ActorLang.Proofs.Grammar.Sound
import ActorLang.Proofs.Grammar.Complete
import ActorLang.Proofs.Grammar.Viable
import ActorLang.Proofs.Relocate
import ActorLang.Proofs.Lexer
import ActorLang.Proofs.Lexer.Split
import ActorLang.Proofs.Lexer.Position
import ActorLang.Proofs.Lexer.Layout
import ActorLang.Proofs.Lexer.Lines
import ActorLang.Proofs.Walk
import ActorLang.Proofs.Run
import ActorLang.Proofs.Run.Rules
import ActorLang.Proofs.Run.Program
import ActorLang.Proofs.Run.Levels
import ActorLang.Proofs.Run.Limits
import ActorLang.Proofs.Run.Blame
import ActorLang.Proofs.Printer.Grouping
import ActorLang.Proofs.Printer.Text
import ActorLang.Proofs.Printer.WellFormed
import ActorLang.Proofs.Printer.Row
import ActorLang.Proofs.Printer.Places
import ActorLang.Proofs.Printer.RoundTrip
import ActorLang.Proofs.Parser.Composition
import ActorLang.Proofs.Parser.Embedding
import ActorLang.Proofs.Delimiters
import ActorLang.Proofs.Run.Delimiters
import ActorLang.Proofs.Lexer.Quoted
import ActorLang.Proofs.Lint
import ActorLang.Proofs.Outline.Lines
import ActorLang.Proofs.Outline.Details
import ActorLang.Proofs.Outline.Shape
import ActorLang.Proofs.Balance
import ActorLang.Proofs.Lint.Removal
import ActorLang.Proofs.Run.Extent
import ActorLang.Proofs.Command
import ActorLang.Proofs.LineBreaks
import ActorLang.Proofs.Run.Progress
import ActorLang.Proofs.Run.Dispatch
