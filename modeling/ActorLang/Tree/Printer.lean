import ActorLang.Tree

/-!
# Canonical layout

A program is printed with one statement a line and the bodies of functions indented; actors and
expressions stay on their line, arguments divided by a comma and a blank. Parentheses are nodes of
the tree, so they are printed as they were read. Where a tree groups operands in a way that bare
text would not keep, parentheses are added.
-/

namespace ActorLang

structure Layout where
  /-- The number of blanks before each statement of a function. -/
  indent : Nat := 4
deriving DecidableEq

variable {P : Type}

def commaList (texts : List String) : String :=
  ", ".intercalate texts

def inParens (text : String) : String :=
  "(" ++ text ++ ")"

def Ident.quoted (id : Ident P) : String :=
  "'" ++ id.name ++ "'"

def Reference.render : Reference P → String
  | name id => id.name
  | literal lit => lit.raw

def Artifact.render : Artifact P → String
  | literal type source _ =>
    "ArtifactFactory.create(" ++ type.name ++ ", " ++ source.render ++ ")"
  | named id => id.name

def MapValue.render : MapValue P → String
  | artifact a => a.render
  | artifactType type => type.name
  | quoted id => id.quoted

def MapItem.render (i : MapItem P) : String :=
  match i.value with
  | none => i.key.quoted
  | some value => i.key.quoted ++ ": " ++ value.render

def ArgMap.render (m : ArgMap P) : String :=
  "\x7b" ++ commaList (m.items.map MapItem.render) ++ "\x7d"

namespace Expr

def isBinary : Expr P → Bool
  | binary .. => true
  | _ => false

def isNot : Expr P → Bool
  | not .. => true
  | _ => false

/-- Whether the text of an expression ends with the operand of a negation, which would take an
operator behind it as its own. A right operand that is binary is printed in parentheses. -/
def endsInNot : Expr P → Bool
  | not .. => true
  | binary _ _ _ right => right.isNot
  | _ => false

def render : Expr P → String
  | not operand _ => "NOT " ++ operand.render
  | instanceOf subject type _ => "INSTANCEOF(" ++ subject.name ++ ", " ++ type.name ++ ")"
  | elementOf subject verdicts _ =>
    "ELEMENTOF(" ++ subject.name ++ ", \x7b" ++ commaList (verdicts.map Verdict.text) ++ "\x7d)"
  | named id => id.name
  | parens inner _ => inParens inner.render
  | binary left op _ right =>
    (if left.endsInNot then inParens left.render else left.render) ++ " " ++ op.text ++ " " ++
      (if right.isBinary then inParens right.render else right.render)

end Expr

namespace Actor

def render : Actor P → String
  | atomic type source _ => "ActorFactory.create(" ++ type.name ++ ", " ++ source.render ++ ")"
  | call name args => name.name ++ inParens (commaList (args.map Ident.name))
  | joiner type merge output _ =>
    "Joiner(" ++ type.name ++ ", " ++ merge.render ++ ", " ++ output.quoted ++ ")"
  | copy map _ => "Copy(" ++ map.render ++ ")"
  | rename map _ => "Rename(" ++ map.render ++ ")"
  | testSpecToSpec _ => "TestSpecToSpec()"
  | specToTestSpec _ => "SpecToTestSpec()"
  | identity target _ => "Identity(" ++ target.render ++ ")"
  | identityMap target _ => "Identity(" ++ target.render ++ ")"
  | sequence first second _ => "SEQUENCE(" ++ first.render ++ ", " ++ second.render ++ ")"
  | ifThenElse condition thenActor elseActor _ =>
    "ITE(" ++ condition.render ++ ", " ++ thenActor.render ++ ", " ++ elseActor.render ++ ")"
  | iterate watched body _ => "REPEAT(" ++ watched.quoted ++ ", " ++ body.render ++ ")"
  | parallel first second _ => "PARALLEL(" ++ first.render ++ ", " ++ second.render ++ ")"
  | named id => id.name
  | parens inner _ => inParens inner.render

def isName (a : Actor P) : Bool :=
  match a.unparenthesized with
  | named _ => true
  | _ => false

end Actor

/-- The text of an assigned value. A name that stands for an actor is wrapped, because alone it
would be read as an expression. -/
def Assignable.render : Assignable P → String
  | expression e => e.render
  | artifact a => a.render
  | argMap m => m.render
  | actor a => if a.isName then "ActorFactory.create(" ++ a.render ++ ")" else a.render
  | literal l => l.raw

def Inputs.render : Inputs P → String
  | named id => id.name
  | argMap m => m.render

def Statement.render : Statement P → String
  | assign target value => target.name ++ " = " ++ value.render
  | print actor _ => "print(" ++ actor.render ++ ")"
  | execute actor inputs _ => "execute(" ++ actor.render ++ ", " ++ inputs.render ++ ")"
  | ret value _ => "return " ++ value.name

/-- The lines of a block, each behind the given number of blanks. -/
def Block.render (margin : Nat) (b : Block P) : String :=
  String.join (b.statements.map fun s =>
    String.ofList (List.replicate margin ' ') ++ s.render ++ ";\n")

def Function.render (layout : Layout) (f : Function P) : String :=
  "fun " ++ f.name.name ++ inParens (commaList (f.params.map Ident.name)) ++ " \x7b\n" ++
    f.body.render layout.indent ++ "\x7d\n"

/-- The lines of a program, an empty one behind each function. -/
def Program.render (layout : Layout) (p : Program P) : String :=
  String.join (p.functions.map fun f => f.render layout ++ "\n") ++ p.body.render 0

end ActorLang
