import ActorLang.Parser.Basic
import ActorLang.Tree

/-!
# Names, artifacts and argument maps

The parts of the grammar that do not nest.
-/

namespace ActorLang.Parser

variable {P : Type}

namespace Stepwise

variable (take : Parser P (Token P))

def ident : Parser P (Ident P) := do
  let t ← expect take .ident
  pure ⟨t.text, t.pos⟩

def typeName : Parser P (TypeIdent P) := do
  let t ← expect take .typeName
  pure ⟨t.text, t.pos⟩

def literal : Parser P (Literal P) := do
  let t ← expect take .str
  pure ⟨t.text, t.pos⟩

def quotedIdent : Parser P (Ident P) := do
  let _ ← expect take .quote
  let id ← ident take
  let _ ← expect take .quote
  pure id

abbrev idents : Parser P (List (Ident P)) :=
  commaSeparated take (ident take)

/-- A list of identifiers, which may be empty, in parentheses. -/
def identsInParens : Parser P (List (Ident P)) := do
  let _ ← expect take .lparen
  let ids ← if ← nextIs .ident then idents take else pure []
  let _ ← expectOr take (if ids.isEmpty then [.ident] else [.comma]) .rparen
  pure ids

def reference : Parser P (Reference P) := do
  match (← peek).kind with
  | .ident => return .name (← ident take)
  | .str => return .literal (← literal take)
  | _ => unexpected [.ident, .str]

/-- The type and the source of a new tool or artifact, with the closing parenthesis. -/
def typeAndSource : Parser P (TypeIdent P × Reference P) := do
  let type ← typeName take
  let _ ← expect take .comma
  let source ← reference take
  let _ ← expect take .rparen
  pure (type, source)

def artifact : Parser P (Artifact P) := do
  match (← peek).kind with
  | .artifactFactory =>
    let t ← take
    let (type, source) ← typeAndSource take
    pure (.literal type source t.pos)
  | .ident => return .named (← ident take)
  | _ => unexpected (Rule.first .artifact)

def mapValue : Parser P (MapValue P) := do
  match (← peek).kind with
  | .artifactFactory | .ident => return .artifact (← artifact take)
  | .typeName => return .artifactType (← typeName take)
  | .quote => return .quoted (← quotedIdent take)
  | _ => unexpected [.artifactFactory, .quote, .ident, .typeName]

def mapItem : Parser P (MapItem P) := do
  let key ← quotedIdent take
  if ← nextIs .colon then
    let _ ← take
    return ⟨key, some (← mapValue take)⟩
  else return ⟨key, none⟩

def argMap : Parser P (ArgMap P) := do
  let t ← expect take .lbrace
  let items ← commaSeparated take (mapItem take)
  let _ ← expectOr take [.comma] .rbrace
  pure ⟨items, t.pos⟩

def mapInParens : Parser P (ArgMap P) := do
  let _ ← expect take .lparen
  let m ← argMap take
  let _ ← expect take .rparen
  pure m

end Stepwise

abbrev ident : Parser P (Ident P) :=
  Stepwise.ident take

abbrev typeName : Parser P (TypeIdent P) :=
  Stepwise.typeName take

abbrev literal : Parser P (Literal P) :=
  Stepwise.literal take

abbrev quotedIdent : Parser P (Ident P) :=
  Stepwise.quotedIdent take

abbrev idents : Parser P (List (Ident P)) :=
  Stepwise.idents take

abbrev identsInParens : Parser P (List (Ident P)) :=
  Stepwise.identsInParens take

abbrev reference : Parser P (Reference P) :=
  Stepwise.reference take

abbrev typeAndSource : Parser P (TypeIdent P × Reference P) :=
  Stepwise.typeAndSource take

abbrev artifact : Parser P (Artifact P) :=
  Stepwise.artifact take

abbrev mapValue : Parser P (MapValue P) :=
  Stepwise.mapValue take

abbrev mapItem : Parser P (MapItem P) :=
  Stepwise.mapItem take

abbrev argMap : Parser P (ArgMap P) :=
  Stepwise.argMap take

abbrev mapInParens : Parser P (ArgMap P) :=
  Stepwise.mapInParens take

end ActorLang.Parser
