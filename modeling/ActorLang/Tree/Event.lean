import ActorLang.Tree

/-!
# Walking a tree

A walk enters every node before its children and leaves it behind them, children in source order.
It is given as the list of its events, from which the other views of a tree are read off. A utility
is two nodes, the actor and inside it the utility itself.
-/

namespace ActorLang

inductive NodeKind
  | program
  | functionDeclaration
  | statementBlock
  | assignmentStatement
  | printActor
  | executeActor
  | returnStatement
  | atomic
  | functionCall
  | utility
  | sequence
  | ifThenElse
  | iterative
  | parallel
  | actorAlias
  | parenthesizedActor
  | joiner
  | copy
  | rename
  | testSpecToSpec
  | specToTestSpec
  | identity
  | not
  | instanceOf
  | elementOf
  | expressionAlias
  | parenthesizedExpression
  | binaryLogical
  | argumentMap
  | mapItem
  | artifactLiteral
  | artifactAlias
  | literal
deriving DecidableEq

def NodeKind.name : NodeKind → String
  | program => "Program"
  | functionDeclaration => "FunctionDeclaration"
  | statementBlock => "StatementBlock"
  | assignmentStatement => "AssignmentStatement"
  | printActor => "PrintActor"
  | executeActor => "ExecuteActor"
  | returnStatement => "ReturnStatement"
  | atomic => "Atomic"
  | functionCall => "FunctionCall"
  | utility => "Utility"
  | sequence => "Sequence"
  | ifThenElse => "IfThenElse"
  | iterative => "Iterative"
  | parallel => "Parallel"
  | actorAlias => "ActorAlias"
  | parenthesizedActor => "ParenthesizedActor"
  | joiner => "Joiner"
  | copy => "Copy"
  | rename => "Rename"
  | testSpecToSpec => "TestSpecToSpec"
  | specToTestSpec => "SpecToTestSpec"
  | identity => "Identity"
  | not => "Not"
  | instanceOf => "InstanceOf"
  | elementOf => "ElementOf"
  | expressionAlias => "ExpressionAlias"
  | parenthesizedExpression => "ParenthesizedExpression"
  | binaryLogical => "BinaryLogical"
  | argumentMap => "ArgumentMap"
  | mapItem => "MapItem"
  | artifactLiteral => "ArtifactLiteral"
  | artifactAlias => "ArtifactAlias"
  | literal => "Literal"

/-- A node of a tree, with the subtree below it. -/
inductive Node (P : Type)
  | program (p : Program P)
  | function (f : Function P)
  | block (b : Block P)
  | statement (s : Statement P)
  | actor (a : Actor P)
  /-- The utility that the actor is. -/
  | utility (a : Actor P)
  | expr (e : Expr P)
  | argMap (m : ArgMap P)
  | mapItem (i : MapItem P)
  | artifact (a : Artifact P)
  | literal (l : Literal P)
deriving DecidableEq

inductive Event (P : Type)
  | enter (n : Node P)
  | exit (n : Node P)
deriving DecidableEq

variable {P : Type}

def Statement.kind : Statement P → NodeKind
  | assign .. => .assignmentStatement
  | print .. => .printActor
  | execute .. => .executeActor
  | ret .. => .returnStatement

def Actor.isUtility : Actor P → Bool
  | joiner .. | copy .. | rename .. | testSpecToSpec .. | specToTestSpec .. | identity ..
  | identityMap .. => true
  | _ => false

def Actor.form : Actor P → NodeKind
  | atomic .. => .atomic
  | call .. => .functionCall
  | joiner .. => .joiner
  | copy .. => .copy
  | rename .. => .rename
  | testSpecToSpec .. => .testSpecToSpec
  | specToTestSpec .. => .specToTestSpec
  | identity .. => .identity
  | identityMap .. => .identity
  | sequence .. => .sequence
  | ifThenElse .. => .ifThenElse
  | iterate .. => .iterative
  | parallel .. => .parallel
  | named .. => .actorAlias
  | parens .. => .parenthesizedActor

/-- The kind of an actor; all utilities have one kind. -/
def Actor.kind (a : Actor P) : NodeKind :=
  if a.isUtility then .utility else a.form

def Expr.kind : Expr P → NodeKind
  | not .. => .not
  | instanceOf .. => .instanceOf
  | elementOf .. => .elementOf
  | named .. => .expressionAlias
  | parens .. => .parenthesizedExpression
  | binary .. => .binaryLogical

def Artifact.kind : Artifact P → NodeKind
  | literal .. => .artifactLiteral
  | named .. => .artifactAlias

namespace Node

def kind : Node P → NodeKind
  | program _ => .program
  | function _ => .functionDeclaration
  | block _ => .statementBlock
  | statement s => s.kind
  | actor a => a.kind
  | utility a => a.form
  | expr e => e.kind
  | argMap _ => .argumentMap
  | mapItem _ => .mapItem
  | artifact a => a.kind
  | literal _ => .literal

/-- The place of a node. A program has none; that of a map entry is its key's. -/
def pos? : Node P → Option P
  | program _ => none
  | function f => some f.pos
  | block b => some b.pos
  | statement s => some s.pos
  | actor a => some a.pos
  | utility a => some a.pos
  | expr e => some e.pos
  | argMap m => some m.pos
  | mapItem i => some i.key.pos
  | artifact a => some a.pos
  | literal l => some l.pos

/-- The walk of a node around the walk of its children. -/
def around (n : Node P) (children : List (Event P)) : List (Event P) :=
  .enter n :: (children ++ [.exit n])

end Node

def Literal.events (l : Literal P) : List (Event P) :=
  (Node.literal l).around []

/-- The walk of a source: only a literal is a node. -/
def Reference.events : Reference P → List (Event P)
  | name _ => []
  | literal lit => lit.events

def Artifact.events (a : Artifact P) : List (Event P) :=
  (Node.artifact a).around <|
    match a with
    | literal _ source _ => source.events
    | named _ => []

def MapItem.events (i : MapItem P) : List (Event P) :=
  (Node.mapItem i).around <|
    match i.value with
    | some (.artifact a) => a.events
    | _ => []

def ArgMap.events (m : ArgMap P) : List (Event P) :=
  (Node.argMap m).around (m.items.flatMap MapItem.events)

def Expr.events : Expr P → List (Event P)
  | e@(not operand _) => (Node.expr e).around operand.events
  | e@(parens inner _) => (Node.expr e).around inner.events
  | e@(binary left _ _ right) => (Node.expr e).around (left.events ++ right.events)
  | e => (Node.expr e).around []

def Actor.events : Actor P → List (Event P)
  | a@(atomic _ source _) => (Node.actor a).around source.events
  | a@(joiner _ merge _ _) => (Node.actor a).around ((Node.utility a).around merge.events)
  | a@(copy map _) => (Node.actor a).around ((Node.utility a).around map.events)
  | a@(rename map _) => (Node.actor a).around ((Node.utility a).around map.events)
  | a@(identity target _) => (Node.actor a).around ((Node.utility a).around target.events)
  | a@(identityMap target _) => (Node.actor a).around ((Node.utility a).around target.events)
  | a@(testSpecToSpec _) => (Node.actor a).around ((Node.utility a).around [])
  | a@(specToTestSpec _) => (Node.actor a).around ((Node.utility a).around [])
  | a@(sequence first second _) => (Node.actor a).around (first.events ++ second.events)
  | a@(parallel first second _) => (Node.actor a).around (first.events ++ second.events)
  | a@(ifThenElse condition thenActor elseActor _) =>
    (Node.actor a).around (condition.events ++ thenActor.events ++ elseActor.events)
  | a@(iterate _ body _) => (Node.actor a).around body.events
  | a@(parens inner _) => (Node.actor a).around inner.events
  | a@(call _ _) => (Node.actor a).around []
  | a@(named _) => (Node.actor a).around []

def Assignable.events : Assignable P → List (Event P)
  | expression e => e.events
  | artifact a => a.events
  | argMap m => m.events
  | actor a => a.events
  | literal l => l.events

/-- The walk of the inputs of an execution: only a map is a node. -/
def Inputs.events : Inputs P → List (Event P)
  | named _ => []
  | argMap m => m.events

def Statement.events (s : Statement P) : List (Event P) :=
  (Node.statement s).around <|
    match s with
    | assign _ value => value.events
    | print actor _ => actor.events
    | execute actor inputs _ => actor.events ++ inputs.events
    | ret .. => []

def Block.events (b : Block P) : List (Event P) :=
  (Node.block b).around (b.statements.flatMap Statement.events)

def Function.events (f : Function P) : List (Event P) :=
  (Node.function f).around f.body.events

def Program.events (p : Program P) : List (Event P) :=
  (Node.program p).around (p.functions.flatMap Function.events ++ p.body.events)

def Event.entered? : Event P → Option (Node P)
  | enter n => some n
  | exit _ => none

/-- The nodes of a program, each before its children. -/
def Program.nodes (p : Program P) : List (Node P) :=
  p.events.filterMap Event.entered?

def Program.kinds (p : Program P) : List NodeKind :=
  p.nodes.map Node.kind

end ActorLang
