import ActorLang.Token

/-!
# The grammar as tables

For every rule of the grammar: its alternatives in order with the classes that begin them, how far
one has to look to choose between them, whether it can be empty, and the class that continues a
left-recursive one. The parser takes its loop conditions and its lists of expectations from here.
-/

namespace ActorLang

inductive Rule
  | program
  | funDecl
  | stmtBlock
  | idList
  | stmt
  | specStmt
  | execStmt
  | returnStmt
  | argMap
  | mapItemList
  | mapItem
  | assignable
  | actor
  | utilityActor
  | artifact
  | artifactType
  | actorType
  | exp
  | verdictList
  | quotedId
deriving DecidableEq

inductive Lookahead
  /-- By that many tokens. -/
  | tokens (n : Nat)
  /-- By the tokens behind a run of opening parentheses. -/
  | parenSkipping
deriving DecidableEq

/-- An alternative of a rule and the classes that begin it. -/
structure Alternative where
  label : String
  first : List TokenKind
deriving DecidableEq

namespace Rule

def all : List Rule :=
  [program, funDecl, stmtBlock, idList, stmt, specStmt, execStmt, returnStmt, argMap, mapItemList,
    mapItem, assignable, actor, utilityActor, artifact, artifactType, actorType, exp, verdictList,
    quotedId]

def name : Rule → String
  | program => "program"
  | funDecl => "fun_decl"
  | stmtBlock => "stmt_block"
  | idList => "id_list"
  | stmt => "stmt"
  | specStmt => "spec_stmt"
  | execStmt => "exec_stmt"
  | returnStmt => "return_stmt"
  | argMap => "arg_map"
  | mapItemList => "map_item_list"
  | mapItem => "map_item"
  | assignable => "assignable"
  | actor => "actor"
  | utilityActor => "utility_actor"
  | artifact => "artifact"
  | artifactType => "artifact_type"
  | actorType => "actor_type"
  | exp => "exp"
  | verdictList => "verdict_list"
  | quotedId => "quoted_ID"

def ofName? (text : String) : Option Rule :=
  all.find? (·.name = text)

theorem ofName?_name (r : Rule) : ofName? r.name = some r := by
  cases r <;> decide

def stmtStart : List TokenKind :=
  [.print, .execute, .ret, .ident]

def utilityStart : List TokenKind :=
  [.joiner, .copy, .rename, .testSpecToSpec, .specToTestSpec, .identity]

def expStart : List TokenKind :=
  [.not, .instanceOf, .elementOf, .ident, .lparen]

def actorStart : List TokenKind :=
  [.actorFactory, .sequence, .ite, .iterate, .parallel, .joiner, .copy, .rename, .testSpecToSpec,
    .specToTestSpec, .identity, .lparen, .ident]

def alternatives : Rule → List Alternative
  | program => [⟨"fun_decl", [.func]⟩, ⟨"stmt_block", [.print, .execute, .ret, .ident, .eof]⟩]
  | funDecl => [⟨"fun_decl", [.func]⟩]
  | stmtBlock => [⟨"stmt", stmtStart⟩]
  | idList => [⟨"id_list", [.ident]⟩]
  | stmt =>
    [⟨"spec_stmt", [.ident]⟩, ⟨"exec_stmt", [.print, .execute]⟩, ⟨"return_stmt", [.ret]⟩]
  | specStmt => [⟨"spec_stmt", [.ident]⟩]
  | execStmt => [⟨"PrintActor", [.print]⟩, ⟨"ExecuteActor", [.execute]⟩]
  | returnStmt => [⟨"return_stmt", [.ret]⟩]
  | argMap => [⟨"arg_map", [.lbrace]⟩]
  | mapItemList => [⟨"map_item_list", [.quote]⟩]
  | mapItem => [⟨"map_item", [.quote]⟩]
  | assignable =>
    [⟨"exp", expStart⟩, ⟨"artifact", [.artifactFactory, .ident]⟩, ⟨"arg_map", [.lbrace]⟩,
      ⟨"actor", actorStart⟩, ⟨"literal", [.str]⟩]
  | actor =>
    [⟨"Atomic", [.actorFactory]⟩, ⟨"FunCall", [.ident]⟩, ⟨"Utility", utilityStart⟩,
      ⟨"Sequence", [.sequence]⟩, ⟨"ITE", [.ite]⟩, ⟨"Iterative", [.iterate]⟩,
      ⟨"Parallel", [.parallel]⟩, ⟨"ActorAlias", [.ident]⟩, ⟨"Parenthesis", [.lparen]⟩]
  | utilityActor =>
    [⟨"Joiner", [.joiner]⟩, ⟨"Copy", [.copy]⟩, ⟨"Rename", [.rename]⟩,
      ⟨"TestSpecToSpec", [.testSpecToSpec]⟩, ⟨"SpecToTestSpec", [.specToTestSpec]⟩,
      ⟨"Identity", [.identity]⟩]
  | artifact => [⟨"ArtifactLiteral", [.artifactFactory]⟩, ⟨"ArtifactAlias", [.ident]⟩]
  | artifactType => [⟨"artifact_type", [.typeName]⟩]
  | actorType => [⟨"actor_type", [.typeName]⟩]
  | exp =>
    [⟨"NotLogical", [.not]⟩, ⟨"InstanceOf", [.instanceOf]⟩, ⟨"ElementOf", [.elementOf]⟩,
      ⟨"ExpAlias", [.ident]⟩, ⟨"Paren", [.lparen]⟩]
  | verdictList => [⟨"verdict_list", [.verdict]⟩]
  | quotedId => [⟨"quoted_ID", [.quote]⟩]

def lookahead : Rule → Lookahead
  | assignable => .parenSkipping
  | actor => .tokens 2
  | _ => .tokens 1

def nullable : Rule → Bool
  | stmtBlock => true
  | _ => false

/-- The class that continues a left-recursive rule. -/
def continuation : Rule → Option TokenKind
  | exp => some .binOp
  | _ => none

/-- The classes that begin some alternative, in listing order. -/
def first (r : Rule) : List TokenKind :=
  TokenKind.listed (r.alternatives.flatMap (·.first))

def alternativesFor (r : Rule) (k : TokenKind) : List Alternative :=
  r.alternatives.filter (·.first.contains k)

def starts (r : Rule) (k : TokenKind) : Bool :=
  r.alternatives.any (·.first.contains k)

def disjoint : List Alternative → Bool
  | [] => true
  | a :: rest => rest.all (fun b => a.first.all (!b.first.contains ·)) && disjoint rest

/-- Whether a rule has alternatives, and one token suffices to choose where the table says so. -/
def consistent (r : Rule) : Bool :=
  !r.alternatives.isEmpty && (r.lookahead != .tokens 1 || disjoint r.alternatives)

theorem mem_first {r : Rule} {k : TokenKind} : k ∈ r.first ↔ r.starts k = true := by
  simp [first, starts, TokenKind.mem_listed]

theorem consistent_eq_true (r : Rule) : r.consistent = true := by
  cases r <;> decide

end Rule

end ActorLang
