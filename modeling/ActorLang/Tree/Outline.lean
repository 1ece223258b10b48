import ActorLang.Tree.Event
import ActorLang.Tree.Printer

/-!
# Outlines

An outline lists the nodes of a program, one a line, two blanks deeper than their parent, with the
names and texts that the node itself holds.
-/

namespace ActorLang

variable {P : Type}

/-- The name of a source; a literal has a line of its own. -/
def Reference.outlineName : Reference P → Option String
  | name id => some id.name
  | literal _ => none

def outlineOrigin (type : TypeIdent P) (source : Reference P) : String :=
  match source.outlineName with
  | some name => type.name ++ " " ++ name
  | none => type.name

def outlineSignature (name : Ident P) (args : List (Ident P)) : String :=
  name.name ++ inParens (commaList (args.map Ident.name))

def Assignable.outlineForm : Assignable P → String
  | expression _ => "expression"
  | artifact _ => "artifact"
  | argMap _ => "map"
  | actor _ => "actor"
  | literal _ => "literal"

def Statement.outlineDetail : Statement P → Option String
  | assign target value => some (target.name ++ " (" ++ value.outlineForm ++ ")")
  | execute _ (.named id) _ => some ("inputs=" ++ id.name)
  | execute _ (.argMap _) _ => none
  | print .. => none
  | ret value _ => some value.name

def Actor.outlineDetail : Actor P → Option String
  | atomic type source _ => some (outlineOrigin type source)
  | call name args => some (outlineSignature name args)
  | iterate watched _ _ => some watched.quoted
  | named id => some id.name
  | _ => none

def Actor.utilityDetail : Actor P → Option String
  | joiner type _ output _ => some (type.name ++ " -> " ++ output.quoted)
  | _ => none

def Expr.outlineDetail : Expr P → Option String
  | instanceOf subject type _ => some (subject.name ++ " " ++ type.name)
  | elementOf subject verdicts _ =>
    some (subject.name ++ " \x7b" ++ commaList (verdicts.map Verdict.text) ++ "\x7d")
  | named id => some id.name
  | binary _ op _ _ => some op.text
  | _ => none

/-- What the line of a map entry shows; an artifact has a line of its own. -/
def MapItem.outlineDetail (i : MapItem P) : String :=
  match i.value with
  | some (.artifactType type) => i.key.quoted ++ ": " ++ type.name
  | some (.quoted id) => i.key.quoted ++ ": " ++ id.quoted
  | _ => i.key.quoted

def Artifact.outlineDetail : Artifact P → String
  | literal type source _ => outlineOrigin type source
  | named id => id.name

def Node.outlineDetail : Node P → Option String
  | program _ => none
  | function f => some (outlineSignature f.name f.params)
  | block _ => none
  | statement s => s.outlineDetail
  | actor a => a.outlineDetail
  | utility a => a.utilityDetail
  | expr e => e.outlineDetail
  | argMap _ => none
  | mapItem i => some i.outlineDetail
  | artifact a => some a.outlineDetail
  | literal l => some l.raw

def Node.outlineLine (depth : Nat) (n : Node P) : String :=
  let head := String.ofList (List.replicate (2 * depth) ' ') ++ n.kind.name
  match n.outlineDetail with
  | some detail => head ++ " " ++ detail ++ "\n"
  | none => head ++ "\n"

/-- The lines of the nodes that a walk enters, from a depth on. -/
def outlineFrom (depth : Nat) : List (Event P) → String
  | [] => ""
  | .enter n :: rest => n.outlineLine depth ++ outlineFrom (depth + 1) rest
  | .exit _ :: rest => outlineFrom (depth - 1) rest

def Program.outline (p : Program P) : String :=
  outlineFrom 0 p.events

end ActorLang
