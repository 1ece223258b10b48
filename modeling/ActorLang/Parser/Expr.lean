import ActorLang.Parser.Artifact

/-!
# Expressions

Operators have one precedence and group to the left. A negation takes all operators behind it
along, so only a chain that begins without one is grouped at its own level. Each level of nesting
uses up one unit of `room`; none is left at the depth limit.
-/

namespace ActorLang

/-- How much of a row of operators belongs to an expression. -/
inductive Tier
  /-- All of it. -/
  | chain
  /-- None of it: the right operand of an operator ends before the next one. -/
  | operand
deriving DecidableEq

namespace Parser

variable {P : Type}

def operator (t : Token P) : Parser P BinOp :=
  match BinOp.ofText? t.text with
  | some op => pure op
  | none => fail (.internal (InternalFault.unknownOperator t.text).message)

namespace Stepwise

variable (take : Parser P (Token P))

def verdict : Parser P Verdict := do
  let t ← expect take .verdict
  match Verdict.ofText? t.text with
  | some v => pure v
  | none => fail (.internal (InternalFault.unknownVerdict t.text).message)

abbrev verdicts : Parser P (List Verdict) :=
  commaSeparated take (verdict take)

/-- An expression up to its first operator, where `expr` reads the expressions inside it. -/
def exprHead (expr : Tier → Parser P (Expr P)) : Parser P (Expr P) := do
  match (← peek).kind with
  | .not =>
    let t ← take
    let operand ← expr .chain
    pure (.not operand t.pos)
  | .instanceOf =>
    let t ← take
    let _ ← expect take .lparen
    let subject ← ident take
    let _ ← expect take .comma
    let type ← typeName take
    let _ ← expect take .rparen
    pure (.instanceOf subject type t.pos)
  | .elementOf =>
    let t ← take
    let _ ← expect take .lparen
    let subject ← ident take
    let _ ← expect take .comma
    let _ ← expect take .lbrace
    let vs ← verdicts take
    let _ ← expectOr take [.comma] .rbrace
    let _ ← expect take .rparen
    pure (.elementOf subject vs t.pos)
  | .ident => return .named (← ident take)
  | .lparen =>
    let t ← take
    let inner ← expr .chain
    let _ ← expectOr take [.binOp] .rparen
    pure (.parens inner t.pos)
  | _ => unexpected (Rule.first .exp)

/-- At most `n` operators behind `left`, each with its right operand, grouped to the left. -/
def operatorsAfter (operand : Parser P (Expr P)) : Nat → Expr P → Parser P (Expr P)
  | 0, left => pure left
  | n + 1, left => do
    if ← nextIs .binOp then
      let t ← take
      let op ← operator t
      let right ← operand
      operatorsAfter operand n (.binary left op t.pos right)
    else pure left

def exprOf (expr : Tier → Parser P (Expr P)) (tier : Tier) : Parser P (Expr P) := do
  let left ← exprHead take expr
  match tier with
  | .chain => operatorsAfter take (expr .operand) (← remaining) left
  | .operand => pure left

/-- An expression with room for that many levels of nesting under a depth limit. -/
def exprAt (limit : Nat) :
    (room : Nat) → Tier → TokenStream P → Except (ParseError P) (Expr P × TokenStream P)
  | 0, _, s => tooDeep limit s
  | room + 1, tier, s => exprOf take (exprAt limit room) tier s

abbrev expr (limit room : Nat) : Parser P (Expr P) :=
  exprAt take limit room .chain

end Stepwise

abbrev verdict : Parser P Verdict :=
  Stepwise.verdict take

abbrev verdicts : Parser P (List Verdict) :=
  Stepwise.verdicts take

abbrev exprHead (expr : Tier → Parser P (Expr P)) : Parser P (Expr P) :=
  Stepwise.exprHead take expr

abbrev operatorsAfter (operand : Parser P (Expr P)) : Nat → Expr P → Parser P (Expr P) :=
  Stepwise.operatorsAfter take operand

abbrev exprOf (expr : Tier → Parser P (Expr P)) (tier : Tier) : Parser P (Expr P) :=
  Stepwise.exprOf take expr tier

abbrev exprAt (limit room : Nat) (tier : Tier) : Parser P (Expr P) :=
  Stepwise.exprAt take limit room tier

abbrev expr (limit room : Nat) : Parser P (Expr P) :=
  Stepwise.expr take limit room

end Parser

end ActorLang
