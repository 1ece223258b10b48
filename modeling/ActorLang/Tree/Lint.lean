import ActorLang.Position
import ActorLang.Tree.Event

/-!
# Lints

Two habits are reported and never refused: a negation of a negation, and parentheses around a name
or around further parentheses. Findings are in source order.
-/

namespace ActorLang

/-- The habits that are reported, in the order of their names. -/
inductive LintRule
  | doubleNegation
  | redundantParens
deriving DecidableEq

namespace LintRule

def all : List LintRule :=
  [doubleNegation, redundantParens]

def name : LintRule → String
  | doubleNegation => "double-negation"
  | redundantParens => "redundant-parens"

/-- The rules come in the order of their names. -/
instance : LE LintRule where
  le r s := r = doubleNegation ∨ s = redundantParens

instance (r s : LintRule) : Decidable (r ≤ s) :=
  inferInstanceAs (Decidable (_ ∨ _))

end LintRule

structure Finding (P : Type) where
  rule : LintRule
  message : String
  pos : P
deriving DecidableEq

namespace Lint

variable {P : Type}

def parensAround (what : String) (pos : P) : Finding P :=
  ⟨.redundantParens, "redundant parentheses around " ++ what, pos⟩

def onActor : LintRule → Actor P → Option (Finding P)
  | .redundantParens, .parens (.named id) pos => some (parensAround ("'" ++ id.name ++ "'") pos)
  | .redundantParens, .parens (.parens ..) pos => some (parensAround "a parenthesized actor" pos)
  | _, _ => none

def onExpr : LintRule → Expr P → Option (Finding P)
  | .doubleNegation, .not (.not ..) pos =>
    some ⟨.doubleNegation, "double negation cancels out", pos⟩
  | .redundantParens, .parens (.named id) pos => some (parensAround ("'" ++ id.name ++ "'") pos)
  | .redundantParens, .parens (.parens ..) pos =>
    some (parensAround "a parenthesized expression" pos)
  | _, _ => none

def onNode (rule : LintRule) : Node P → Option (Finding P)
  | .actor a => onActor rule a
  | .expr e => onExpr rule e
  | _ => none

/-- Findings are ordered by place, then by rule. -/
def inOrder (a b : Finding Position) : Bool :=
  decide (a.pos ≤ b.pos ∧ (a.pos = b.pos → a.rule ≤ b.rule))

end Lint

def Program.findings (p : Program Position) : List (Finding Position) :=
  (LintRule.all.flatMap fun rule => p.nodes.filterMap (Lint.onNode rule)).mergeSort Lint.inOrder

end ActorLang
