import ActorLang.Token.Quoted

/-!
# Parse trees

A program is a list of functions and a block of statements. Statements assign, run and return
actors; actors are combinations of verification tools, and expressions steer them. A tree is
generic in the type of its places: nodes keep the place of the token that decided their form, and
mapping all places to one point compares two trees apart from layout.
-/

namespace ActorLang

structure Ident (P : Type) where
  name : String
  pos : P
deriving DecidableEq

/-- The name of a type of actors or artifacts. -/
structure TypeIdent (P : Type) where
  name : String
  pos : P
deriving DecidableEq

structure Literal (P : Type) where
  raw : String
  pos : P
deriving DecidableEq

def Literal.value {P : Type} (l : Literal P) : String :=
  Quoted.value l.raw

/-- Where a tool or an artifact comes from. -/
inductive Reference (P : Type)
  | name (id : Ident P)
  | literal (lit : Literal P)
deriving DecidableEq

/-- A file or object that actors consume and produce. -/
inductive Artifact (P : Type)
  /-- A new artifact of a type, made from a source. -/
  | literal (type : TypeIdent P) (source : Reference P) (pos : P)
  /-- An artifact with a name. -/
  | named (id : Ident P)
deriving DecidableEq

inductive MapValue (P : Type)
  | artifact (artifact : Artifact P)
  | artifactType (type : TypeIdent P)
  | quoted (id : Ident P)
deriving DecidableEq

structure MapItem (P : Type) where
  key : Ident P
  value : Option (MapValue P)
deriving DecidableEq

structure ArgMap (P : Type) where
  items : List (MapItem P)
  pos : P
deriving DecidableEq

/-- The binary operators, all of one precedence. -/
inductive BinOp
  | and
  | or
  | eq
  | notEq
deriving DecidableEq

def BinOp.text : BinOp → String
  | and => "AND"
  | or => "OR"
  | eq => "=="
  | notEq => "!="

def BinOp.ofText? (text : String) : Option BinOp :=
  match text with
  | "AND" => some and
  | "OR" => some or
  | "==" => some eq
  | "!=" => some notEq
  | _ => none

theorem BinOp.ofText?_text (op : BinOp) : ofText? op.text = some op := by
  cases op <;> rfl

inductive Verdict
  | true
  | false
  | unknown
  | error
deriving DecidableEq

def Verdict.text : Verdict → String
  | true => "TRUE"
  | false => "FALSE"
  | unknown => "UNKNOWN"
  | error => "ERROR"

def Verdict.ofText? (text : String) : Option Verdict :=
  match text with
  | "TRUE" => some true
  | "FALSE" => some false
  | "UNKNOWN" => some unknown
  | "ERROR" => some error
  | _ => none

theorem Verdict.ofText?_text (v : Verdict) : ofText? v.text = some v := by
  cases v <;> rfl

/-- A condition on artifacts and verdicts. -/
inductive Expr (P : Type)
  | not (operand : Expr P) (pos : P)
  | instanceOf (subject : Ident P) (type : TypeIdent P) (pos : P)
  | elementOf (subject : Ident P) (verdicts : List Verdict) (pos : P)
  | named (id : Ident P)
  | parens (inner : Expr P) (pos : P)
  | binary (left : Expr P) (op : BinOp) (opPos : P) (right : Expr P)
deriving DecidableEq

/-- A verification tool or a combination of tools. -/
inductive Actor (P : Type)
  /-- A tool of a type, described by a source. -/
  | atomic (type : TypeIdent P) (source : Reference P) (pos : P)
  /-- The actor that a function returns. -/
  | call (name : Ident P) (args : List (Ident P))
  /-- A utility: merges artifacts into one. -/
  | joiner (type : TypeIdent P) (merge : ArgMap P) (output : Ident P) (pos : P)
  /-- A utility: copies artifacts. -/
  | copy (map : ArgMap P) (pos : P)
  /-- A utility: renames artifacts. -/
  | rename (map : ArgMap P) (pos : P)
  /-- A utility: turns a test specification into a specification. -/
  | testSpecToSpec (pos : P)
  /-- A utility: turns a specification into a test specification. -/
  | specToTestSpec (pos : P)
  /-- A utility: passes the inputs of an actor through. -/
  | identity (target : Actor P) (pos : P)
  /-- A utility: passes the artifacts of a map through. -/
  | identityMap (target : ArgMap P) (pos : P)
  /-- One actor after the other. -/
  | sequence (first second : Actor P) (pos : P)
  /-- A choice between two actors. -/
  | ifThenElse (condition : Expr P) (thenActor elseActor : Actor P) (pos : P)
  /-- An actor run again until the watched artifact keeps its value. -/
  | iterate (watched : Ident P) (body : Actor P) (pos : P)
  /-- Two actors side by side. -/
  | parallel (first second : Actor P) (pos : P)
  | named (id : Ident P)
  | parens (inner : Actor P) (pos : P)
deriving DecidableEq

inductive Assignable (P : Type)
  | expression (e : Expr P)
  | artifact (a : Artifact P)
  | argMap (m : ArgMap P)
  | actor (a : Actor P)
  | literal (l : Literal P)
deriving DecidableEq

inductive Inputs (P : Type)
  | named (id : Ident P)
  | argMap (m : ArgMap P)
deriving DecidableEq

inductive Statement (P : Type)
  | assign (target : Ident P) (value : Assignable P)
  | print (actor : Actor P) (pos : P)
  | execute (actor : Actor P) (inputs : Inputs P) (pos : P)
  | ret (value : Ident P) (pos : P)
deriving DecidableEq

/-- A row of statements; the place is that of the token at which it begins. -/
structure Block (P : Type) where
  statements : List (Statement P)
  pos : P
deriving DecidableEq

structure Function (P : Type) where
  name : Ident P
  params : List (Ident P)
  body : Block P
  pos : P
deriving DecidableEq

structure Program (P : Type) where
  functions : List (Function P)
  body : Block P
deriving DecidableEq

variable {P : Type}

def Reference.pos : Reference P → P
  | name id => id.pos
  | literal lit => lit.pos

def Artifact.pos : Artifact P → P
  | literal _ _ pos => pos
  | named id => id.pos

/-- The place of an expression; that of a binary one is its left operand's. -/
def Expr.pos : Expr P → P
  | not _ pos | instanceOf _ _ pos | elementOf _ _ pos | parens _ pos => pos
  | named id => id.pos
  | binary left _ _ _ => left.pos

def Actor.pos : Actor P → P
  | atomic _ _ pos | joiner _ _ _ pos | copy _ pos | rename _ pos | testSpecToSpec pos
  | specToTestSpec pos | identity _ pos | identityMap _ pos | sequence _ _ pos
  | ifThenElse _ _ _ pos | iterate _ _ pos | parallel _ _ pos | parens _ pos => pos
  | call name _ => name.pos
  | named id => id.pos

def Actor.unparenthesized : Actor P → Actor P
  | parens inner _ => inner.unparenthesized
  | a => a

def Statement.pos : Statement P → P
  | assign target _ => target.pos
  | print _ pos | execute _ _ pos | ret _ pos => pos

end ActorLang
