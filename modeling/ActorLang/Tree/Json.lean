import ActorLang.Error
import ActorLang.Json
import ActorLang.Tree.Lint

/-!
# Trees, tokens and reports as JSON

The forms in which results are handed to other tools. A node with several forms is an object with
one field, named for the form; the place of a node is its last field.
-/

namespace ActorLang

open Json (obj arr str num)

def Position.toJson (p : Position) : Json :=
  obj [("line", num p.line), ("column", num p.column), ("offset", num p.offset)]

/-- A form of a node, with what it holds. -/
def Json.form (name : String) (content : Json) : Json :=
  obj [(name, content)]

def Ident.toJson (id : Ident Position) : Json :=
  obj [("name", str id.name), ("pos", id.pos.toJson)]

def TypeIdent.toJson (type : TypeIdent Position) : Json :=
  obj [("name", str type.name), ("pos", type.pos.toJson)]

def Literal.toJson (l : Literal Position) : Json :=
  obj [("raw", str l.raw), ("pos", l.pos.toJson)]

def Reference.toJson : Reference Position → Json
  | name id => .form "Name" id.toJson
  | literal lit => .form "Literal" lit.toJson

def Artifact.toJson : Artifact Position → Json
  | literal type source pos =>
    .form "Literal" <| obj
      [("artifact_type", type.toJson), ("source", source.toJson), ("pos", pos.toJson)]
  | named id => .form "Alias" id.toJson

def MapValue.toJson : MapValue Position → Json
  | artifact a => .form "Artifact" a.toJson
  | artifactType type => .form "ArtifactType" type.toJson
  | quoted id => .form "Quoted" id.toJson

def MapItem.toJson (i : MapItem Position) : Json :=
  obj [("key", i.key.toJson), ("value", (i.value.map MapValue.toJson).getD .null)]

def ArgMap.toJson (m : ArgMap Position) : Json :=
  obj [("items", arr (m.items.map MapItem.toJson)), ("pos", m.pos.toJson)]

def BinOp.name : BinOp → String
  | and => "And"
  | or => "Or"
  | eq => "Eq"
  | notEq => "NotEq"

def Verdict.name : Verdict → String
  | true => "True"
  | false => "False"
  | unknown => "Unknown"
  | error => "Error"

def Expr.toJson : Expr Position → Json
  | not operand pos => .form "Not" <| obj [("operand", operand.toJson), ("pos", pos.toJson)]
  | instanceOf subject type pos =>
    .form "InstanceOf" <| obj
      [("subject", subject.toJson), ("artifact_type", type.toJson), ("pos", pos.toJson)]
  | elementOf subject verdicts pos =>
    .form "ElementOf" <| obj
      [("subject", subject.toJson), ("verdicts", arr (verdicts.map fun v => str v.name)),
        ("pos", pos.toJson)]
  | named id => .form "Alias" id.toJson
  | parens inner pos => .form "Parenthesized" <| obj [("inner", inner.toJson), ("pos", pos.toJson)]
  | binary left op opPos right =>
    .form "Binary" <| obj
      [("left", left.toJson), ("op", str op.name), ("op_pos", opPos.toJson),
        ("right", right.toJson)]

def utilityJson (name : String) (fields : List (String × Json)) (pos : Position) : Json :=
  .form "Utility" (.form name (obj (fields ++ [("pos", pos.toJson)])))

def Actor.toJson : Actor Position → Json
  | atomic type source pos =>
    .form "Atomic" <| obj
      [("actor_type", type.toJson), ("source", source.toJson), ("pos", pos.toJson)]
  | call name args =>
    .form "FunctionCall" <| obj [("name", name.toJson), ("args", arr (args.map Ident.toJson))]
  | joiner type merge output pos =>
    utilityJson "Joiner"
      [("artifact_type", type.toJson), ("merge", merge.toJson), ("output", output.toJson)] pos
  | copy map pos => utilityJson "Copy" [("map", map.toJson)] pos
  | rename map pos => utilityJson "Rename" [("map", map.toJson)] pos
  | testSpecToSpec pos => utilityJson "TestSpecToSpec" [] pos
  | specToTestSpec pos => utilityJson "SpecToTestSpec" [] pos
  | identity target pos =>
    utilityJson "Identity" [("target", .form "Actor" target.toJson)] pos
  | identityMap target pos =>
    utilityJson "Identity" [("target", .form "Map" target.toJson)] pos
  | sequence first second pos =>
    .form "Sequence" <| obj
      [("first", first.toJson), ("second", second.toJson), ("pos", pos.toJson)]
  | ifThenElse condition thenActor elseActor pos =>
    .form "IfThenElse" <| obj
      [("condition", condition.toJson), ("then_actor", thenActor.toJson),
        ("else_actor", elseActor.toJson), ("pos", pos.toJson)]
  | iterate watched body pos =>
    .form "Iterative" <| obj
      [("variable", watched.toJson), ("body", body.toJson), ("pos", pos.toJson)]
  | parallel first second pos =>
    .form "Parallel" <| obj
      [("first", first.toJson), ("second", second.toJson), ("pos", pos.toJson)]
  | named id => .form "Alias" id.toJson
  | parens inner pos => .form "Parenthesized" <| obj [("inner", inner.toJson), ("pos", pos.toJson)]

def Assignable.toJson : Assignable Position → Json
  | expression e => .form "Expression" e.toJson
  | artifact a => .form "Artifact" a.toJson
  | argMap m => .form "ArgMap" m.toJson
  | actor a => .form "Actor" a.toJson
  | literal l => .form "Literal" l.toJson

def Inputs.toJson : Inputs Position → Json
  | named id => .form "Name" id.toJson
  | argMap m => .form "Map" m.toJson

def Statement.toJson : Statement Position → Json
  | assign target value =>
    .form "Assignment" <| obj [("target", target.toJson), ("value", value.toJson)]
  | print actor pos =>
    .form "Execution" <| .form "Print" <| obj [("actor", actor.toJson), ("pos", pos.toJson)]
  | execute actor inputs pos =>
    .form "Execution" <| .form "Execute" <| obj
      [("actor", actor.toJson), ("inputs", inputs.toJson), ("pos", pos.toJson)]
  | ret value pos => .form "Return" <| obj [("value", value.toJson), ("pos", pos.toJson)]

def Block.toJson (b : Block Position) : Json :=
  obj [("statements", arr (b.statements.map Statement.toJson)), ("pos", b.pos.toJson)]

def Function.toJson (f : Function Position) : Json :=
  obj [("name", f.name.toJson), ("params", arr (f.params.map Ident.toJson)),
    ("body", f.body.toJson), ("pos", f.pos.toJson)]

def Program.toJson (p : Program Position) : Json :=
  obj [("functions", arr (p.functions.map Function.toJson)), ("body", p.body.toJson)]

def Finding.toJson (f : Finding Position) : Json :=
  obj [("rule", str f.rule.name), ("message", str f.message), ("position", f.pos.toJson)]

/-- A token as an object, its fields in alphabetical order. -/
def Token.toJson (t : Token Position) : Json :=
  obj [("column", num t.pos.column), ("kind", str t.kind.tag), ("line", num t.pos.line),
    ("offset", num t.pos.offset), ("text", str t.text)]

/-- The classes that an error expected and found; only a mismatch has them. -/
def Cause.expectation : Cause → Json × Json
  | unexpected expected found _ => (arr (expected.map fun k => str k.tag), str found.tag)
  | _ => (.null, .null)

/-- An error as an object, its fields in alphabetical order. The name of the file comes in where
it is known. -/
def ParseError.toJson (e : ParseError Position) (file : Option String) : Json :=
  obj <|
    [("column", num e.pos.column), ("expected", e.cause.expectation.1)] ++
      (file.map fun name => ("file", str name)).toList ++
      [("found", e.cause.expectation.2), ("kind", str e.cause.name), ("line", num e.pos.line),
        ("message", str e.cause.message), ("offset", num e.pos.offset)]

end ActorLang
