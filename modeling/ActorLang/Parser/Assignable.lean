import ActorLang.Parser.Actor

/-!
# Assigned values

A name can begin an expression, an artifact or an actor, and an opening parenthesis an expression
or an actor. The form of an assigned value is therefore chosen by the tokens behind a run of
parentheses. Where several forms fit, the expression is meant.
-/

namespace ActorLang

inductive Assignable.Form
  | expression
  | artifact
  | argMap
  | actor
  | literal
deriving DecidableEq

namespace Parser

variable {P : Type}

/-- The number of opening parentheses at the head of a row of tokens. Each one is a level of
nesting, so that a run longer than `room` is refused where the room ends. -/
def parenRun (limit : Nat) : (room : Nat) → List (Token P) → Except (ParseError P) Nat
  | _, [] => .ok 0
  | room, t :: rest =>
    if t.kind = .lparen then
      match room with
      | 0 => .error ⟨.nesting limit, t.pos⟩
      | room + 1 => (parenRun limit room rest).map (· + 1)
    else .ok 0

/-- The form of an assigned value that has the given number of parentheses in front. Behind them
only expressions and actors are possible, and the actor rule refuses everything else. -/
def formBehind (limits : Limits) (s : TokenStream P) (parens : Nat) : Parser P Assignable.Form :=
  match s.kindAt parens with
  | .not | .instanceOf | .elementOf => pure .expression
  | .ident =>
    if limits.lookahead ≤ 1 then
      fail (.internal (InternalFault.shortLookahead limits.lookahead).message)
    else if s.kindAt (parens + 1) = .lparen then pure .actor
    else pure .expression
  | head =>
    if 0 < parens then pure .actor
    else
      match head with
      | .artifactFactory => pure .artifact
      | .lbrace => pure .argMap
      | .str => pure .literal
      | _ => if Rule.starts .actor head then pure .actor else unexpected (Rule.first .assignable)

def assignableForm (limits : Limits) (room : Nat) : Parser P Assignable.Form := do
  let s ← get
  let parens ← parenRun limits.depth room s.ahead
  formBehind limits s parens

namespace Stepwise

variable (take : Parser P (Token P))

/-- A value of a given form, where `expr` and `actor` read expressions and actors. -/
def assignableAs (expr : Parser P (Expr P)) (actor : Parser P (Actor P)) :
    Assignable.Form → Parser P (Assignable P)
  | .expression => do return .expression (← expr)
  | .artifact => do return .artifact (← artifact take)
  | .argMap => do return .argMap (← argMap take)
  | .actor => do return .actor (← actor)
  | .literal => do return .literal (← literal take)

def assignable (limits : Limits) (room : Nat) : Parser P (Assignable P) := do
  let form ← assignableForm limits room
  assignableAs take (expr take limits.depth room) (actor take limits.depth room) form

end Stepwise

abbrev assignableAs (expr : Parser P (Expr P)) (actor : Parser P (Actor P)) :
    Assignable.Form → Parser P (Assignable P) :=
  Stepwise.assignableAs take expr actor

abbrev assignable (limits : Limits) (room : Nat) : Parser P (Assignable P) :=
  Stepwise.assignable take limits room

end Parser

end ActorLang
