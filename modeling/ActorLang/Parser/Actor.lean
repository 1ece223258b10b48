import ActorLang.Parser.Expr

/-!
# Actors

The next token decides the form of an actor, except that a name before a parenthesis is a call. As
for expressions, each level of nesting uses up one unit of `room`.
-/

namespace ActorLang.Parser

variable {P : Type}

namespace Stepwise

variable (take : Parser P (Token P))

def actorPair (actor : Parser P (Actor P)) : Parser P (Actor P × Actor P) := do
  let first ← actor
  let _ ← expect take .comma
  let second ← actor
  let _ ← expect take .rparen
  pure (first, second)

/-- The part of an actor behind `ActorFactory.create(` at `pos`: a type with a source, or an actor,
which is then the result. -/
def factoryActor (actor : Parser P (Actor P)) (pos : P) : Parser P (Actor P) := do
  if ← nextIs .typeName then
    let (type, source) ← typeAndSource take
    pure (.atomic type source pos)
  else if Rule.starts .actor (← peek).kind then
    let inner ← actor
    let _ ← expect take .rparen
    pure inner
  else unexpected (Rule.first .actor ++ [.typeName])

def functionCall : Parser P (Actor P) := do
  let name ← ident take
  let args ← identsInParens take
  pure (.call name args)

def joiner (pos : P) : Parser P (Actor P) := do
  let _ ← expect take .lparen
  let type ← typeName take
  let _ ← expect take .comma
  let merge ← argMap take
  let _ ← expect take .comma
  let output ← quotedIdent take
  let _ ← expect take .rparen
  pure (.joiner type merge output pos)

def identityTarget (actor : Parser P (Actor P)) (pos : P) : Parser P (Actor P) := do
  if ← nextIs .lbrace then return .identityMap (← argMap take) pos
  else if Rule.starts .actor (← peek).kind then return .identity (← actor) pos
  else unexpected (Rule.first .actor ++ [.lbrace])

/-- An actor, where `actor` and `expr` read the actors and expressions inside it. -/
def actorOf (actor : Parser P (Actor P)) (expr : Parser P (Expr P)) : Parser P (Actor P) := do
  match (← peek).kind with
  | .actorFactory =>
    let t ← take
    factoryActor take actor t.pos
  | .ident =>
    if ← aheadIs 1 .lparen then functionCall take else return .named (← ident take)
  | .joiner =>
    let t ← take
    joiner take t.pos
  | .copy =>
    let t ← take
    return .copy (← mapInParens take) t.pos
  | .rename =>
    let t ← take
    return .rename (← mapInParens take) t.pos
  | .testSpecToSpec =>
    let t ← take
    pure (.testSpecToSpec t.pos)
  | .specToTestSpec =>
    let t ← take
    pure (.specToTestSpec t.pos)
  | .identity =>
    let t ← take
    let _ ← expect take .lparen
    let result ← identityTarget take actor t.pos
    let _ ← expect take .rparen
    pure result
  | .sequence =>
    let t ← take
    let _ ← expect take .lparen
    let (first, second) ← actorPair take actor
    pure (.sequence first second t.pos)
  | .parallel =>
    let t ← take
    let _ ← expect take .lparen
    let (first, second) ← actorPair take actor
    pure (.parallel first second t.pos)
  | .ite =>
    let t ← take
    let _ ← expect take .lparen
    let condition ← expr
    let _ ← expectOr take [.binOp] .comma
    let (thenActor, elseActor) ← actorPair take actor
    pure (.ifThenElse condition thenActor elseActor t.pos)
  | .iterate =>
    let t ← take
    let _ ← expect take .lparen
    let watched ← quotedIdent take
    let _ ← expect take .comma
    let body ← actor
    let _ ← expect take .rparen
    pure (.iterate watched body t.pos)
  | .lparen =>
    let t ← take
    let inner ← actor
    let _ ← expect take .rparen
    pure (.parens inner t.pos)
  | _ => unexpected (Rule.first .actor)

/-- An actor with room for that many levels of nesting under a depth limit. -/
def actor (limit : Nat) :
    (room : Nat) → TokenStream P → Except (ParseError P) (Actor P × TokenStream P)
  | 0, s => tooDeep limit s
  | room + 1, s => actorOf take (actor limit room) (expr take limit room) s

end Stepwise

abbrev actorPair (actor : Parser P (Actor P)) : Parser P (Actor P × Actor P) :=
  Stepwise.actorPair take actor

abbrev factoryActor (actor : Parser P (Actor P)) (pos : P) : Parser P (Actor P) :=
  Stepwise.factoryActor take actor pos

abbrev functionCall : Parser P (Actor P) :=
  Stepwise.functionCall take

abbrev joiner (pos : P) : Parser P (Actor P) :=
  Stepwise.joiner take pos

abbrev identityTarget (actor : Parser P (Actor P)) (pos : P) : Parser P (Actor P) :=
  Stepwise.identityTarget take actor pos

abbrev actorOf (actor : Parser P (Actor P)) (expr : Parser P (Expr P)) : Parser P (Actor P) :=
  Stepwise.actorOf take actor expr

abbrev actor (limit room : Nat) : Parser P (Actor P) :=
  Stepwise.actor take limit room

end ActorLang.Parser
