import ActorLang.Parser.Assignable
import ActorLang.Token.Lexer

/-!
# Statements and programs

Functions come before statements, and every statement is closed by a delimiter. The entry points
read a program, an actor or an expression that spans its whole input, from tokens or from text.
-/

namespace ActorLang

namespace Parser

variable {P : Type}

namespace Stepwise

variable (take : Parser P (Token P))

def inputs : Parser P (Inputs P) := do
  match (← peek).kind with
  | .ident => return .named (← ident take)
  | .lbrace => return .argMap (← argMap take)
  | _ => unexpected [.lbrace, .ident]

/-- A statement without its delimiter, where `value` and `actor` read what is inside it. -/
def statementOf (value : Parser P (Assignable P)) (actor : Parser P (Actor P)) :
    Parser P (Statement P) := do
  match (← peek).kind with
  | .ident =>
    let target ← ident take
    let _ ← expect take .assign
    let value ← value
    pure (.assign target value)
  | .print =>
    let t ← take
    let a ← actor
    let _ ← expect take .rparen
    pure (.print a t.pos)
  | .execute =>
    let t ← take
    let a ← actor
    let _ ← expect take .comma
    let i ← inputs take
    let _ ← expect take .rparen
    pure (.execute a i t.pos)
  | .ret =>
    let t ← take
    let value ← ident take
    pure (.ret value t.pos)
  | _ => unexpected (Rule.first .stmt)

def statement (limits : Limits) : Parser P (Statement P) :=
  statementOf take (assignable take limits limits.depth) (actor take limits.depth limits.depth)

def line (statement : Parser P (Statement P)) : Parser P (Statement P) := do
  let st ← statement
  let _ ← expect take .delimiter
  pure st

/-- A block, up to the first token that begins no statement. -/
def blockOf (statement : Parser P (Statement P)) : Parser P (Block P) := do
  let pos := (← peek).pos
  let stmts ← repeated (Rule.starts .stmt) (line take statement)
  pure ⟨stmts, pos⟩

def functionOf (statement : Parser P (Statement P)) : Parser P (Function P) := do
  let t ← expect take .func
  let name ← ident take
  let params ← identsInParens take
  let _ ← expect take .lbrace
  let body ← blockOf take statement
  let _ ← expectOr take (Rule.first .stmt) .rbrace
  pure ⟨name, params, body, t.pos⟩

def programOf (statement : Parser P (Statement P)) : Parser P (Program P) := do
  let fs ← repeated (· == .func) (functionOf take statement)
  let body ← blockOf take statement
  pure ⟨fs, body⟩

abbrev block (limits : Limits) : Parser P (Block P) :=
  blockOf take (statement take limits)

abbrev function (limits : Limits) : Parser P (Function P) :=
  functionOf take (statement take limits)

abbrev program (limits : Limits) : Parser P (Program P) :=
  spanning (Rule.first .stmt) (programOf take (statement take limits))

abbrev wholeActor (limits : Limits) : Parser P (Actor P) :=
  spanning [] (actor take limits.depth limits.depth)

abbrev wholeExpr (limits : Limits) : Parser P (Expr P) :=
  spanning [.binOp] (expr take limits.depth limits.depth)

end Stepwise

abbrev inputs : Parser P (Inputs P) :=
  Stepwise.inputs take

abbrev statementOf (value : Parser P (Assignable P)) (actor : Parser P (Actor P)) :
    Parser P (Statement P) :=
  Stepwise.statementOf take value actor

abbrev statement (limits : Limits) : Parser P (Statement P) :=
  Stepwise.statement take limits

abbrev line (statement : Parser P (Statement P)) : Parser P (Statement P) :=
  Stepwise.line take statement

abbrev blockOf (statement : Parser P (Statement P)) : Parser P (Block P) :=
  Stepwise.blockOf take statement

abbrev functionOf (statement : Parser P (Statement P)) : Parser P (Function P) :=
  Stepwise.functionOf take statement

abbrev programOf (statement : Parser P (Statement P)) : Parser P (Program P) :=
  Stepwise.programOf take statement

/-- At most that many statements with their delimiters. -/
abbrev statements (limits : Limits) : Nat → Parser P (List (Statement P)) :=
  rounds (Rule.starts .stmt) (line (statement limits))

abbrev block (limits : Limits) : Parser P (Block P) :=
  Stepwise.block take limits

abbrev function (limits : Limits) : Parser P (Function P) :=
  Stepwise.function take limits

abbrev functions (limits : Limits) : Nat → Parser P (List (Function P)) :=
  rounds (· == .func) (function limits)

/-- A program that spans its input. -/
abbrev program (limits : Limits) : Parser P (Program P) :=
  Stepwise.program take limits

abbrev wholeActor (limits : Limits) : Parser P (Actor P) :=
  Stepwise.wholeActor take limits

abbrev wholeExpr (limits : Limits) : Parser P (Expr P) :=
  Stepwise.wholeExpr take limits

end Parser

variable {P : Type} [Inhabited P]

/-- The program that a sequence of tokens stands for. -/
def Program.ofTokens (limits : Limits) (tokens : List (Token P)) :
    Except (ParseError P) (Program P) :=
  (Parser.program limits).run tokens

def Actor.ofTokens (limits : Limits) (tokens : List (Token P)) :
    Except (ParseError P) (Actor P) :=
  (Parser.wholeActor limits).run tokens

def Expr.ofTokens (limits : Limits) (tokens : List (Token P)) :
    Except (ParseError P) (Expr P) :=
  (Parser.wholeExpr limits).run tokens

/-- The program that a text stands for. -/
def Program.parse (limits : Limits) (source : String) :
    Except (ParseError Position) (Program Position) := do
  Program.ofTokens limits (← tokenize source)

def Actor.parse (limits : Limits) (source : String) :
    Except (ParseError Position) (Actor Position) := do
  Actor.ofTokens limits (← tokenize source)

def Expr.parse (limits : Limits) (source : String) :
    Except (ParseError Position) (Expr Position) := do
  Expr.ofTokens limits (← tokenize source)

end ActorLang
