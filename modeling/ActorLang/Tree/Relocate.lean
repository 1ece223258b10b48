import ActorLang.Tree

/-!
# Trees at other places

A function on places moves every place of a tree and leaves the rest alone. Two trees that agree
once all places are forgotten have the same shape: they differ in layout only.
-/

namespace ActorLang

variable {P Q : Type}

def Ident.map (f : P → Q) (id : Ident P) : Ident Q :=
  ⟨id.name, f id.pos⟩

def TypeIdent.map (f : P → Q) (type : TypeIdent P) : TypeIdent Q :=
  ⟨type.name, f type.pos⟩

def Literal.map (f : P → Q) (l : Literal P) : Literal Q :=
  ⟨l.raw, f l.pos⟩

def Reference.map (f : P → Q) : Reference P → Reference Q
  | name id => .name (id.map f)
  | literal lit => .literal (lit.map f)

def Artifact.map (f : P → Q) : Artifact P → Artifact Q
  | literal type source pos => .literal (type.map f) (source.map f) (f pos)
  | named id => .named (id.map f)

def MapValue.map (f : P → Q) : MapValue P → MapValue Q
  | artifact a => .artifact (a.map f)
  | artifactType type => .artifactType (type.map f)
  | quoted id => .quoted (id.map f)

def MapItem.map (f : P → Q) (i : MapItem P) : MapItem Q :=
  ⟨i.key.map f, i.value.map (MapValue.map f)⟩

def ArgMap.map (f : P → Q) (m : ArgMap P) : ArgMap Q :=
  ⟨m.items.map (MapItem.map f), f m.pos⟩

def Expr.map (f : P → Q) : Expr P → Expr Q
  | not operand pos => .not (operand.map f) (f pos)
  | instanceOf subject type pos => .instanceOf (subject.map f) (type.map f) (f pos)
  | elementOf subject verdicts pos => .elementOf (subject.map f) verdicts (f pos)
  | named id => .named (id.map f)
  | parens inner pos => .parens (inner.map f) (f pos)
  | binary left op opPos right => .binary (left.map f) op (f opPos) (right.map f)

def Actor.map (f : P → Q) : Actor P → Actor Q
  | atomic type source pos => .atomic (type.map f) (source.map f) (f pos)
  | call name args => .call (name.map f) (args.map (Ident.map f))
  | joiner type merge output pos => .joiner (type.map f) (merge.map f) (output.map f) (f pos)
  | copy map pos => .copy (map.map f) (f pos)
  | rename map pos => .rename (map.map f) (f pos)
  | testSpecToSpec pos => .testSpecToSpec (f pos)
  | specToTestSpec pos => .specToTestSpec (f pos)
  | identity target pos => .identity (target.map f) (f pos)
  | identityMap target pos => .identityMap (target.map f) (f pos)
  | sequence first second pos => .sequence (first.map f) (second.map f) (f pos)
  | ifThenElse condition thenActor elseActor pos =>
    .ifThenElse (condition.map f) (thenActor.map f) (elseActor.map f) (f pos)
  | iterate watched body pos => .iterate (watched.map f) (body.map f) (f pos)
  | parallel first second pos => .parallel (first.map f) (second.map f) (f pos)
  | named id => .named (id.map f)
  | parens inner pos => .parens (inner.map f) (f pos)

def Assignable.map (f : P → Q) : Assignable P → Assignable Q
  | expression e => .expression (e.map f)
  | artifact a => .artifact (a.map f)
  | argMap m => .argMap (m.map f)
  | actor a => .actor (a.map f)
  | literal l => .literal (l.map f)

def Inputs.map (f : P → Q) : Inputs P → Inputs Q
  | named id => .named (id.map f)
  | argMap m => .argMap (m.map f)

def Statement.map (f : P → Q) : Statement P → Statement Q
  | assign target value => .assign (target.map f) (value.map f)
  | print actor pos => .print (actor.map f) (f pos)
  | execute actor inputs pos => .execute (actor.map f) (inputs.map f) (f pos)
  | ret value pos => .ret (value.map f) (f pos)

def Block.map (f : P → Q) (b : Block P) : Block Q :=
  ⟨b.statements.map (Statement.map f), f b.pos⟩

def Function.map (f : P → Q) (g : Function P) : Function Q :=
  ⟨g.name.map f, g.params.map (Ident.map f), g.body.map f, f g.pos⟩

/-- The same program at other places. -/
def Program.map (f : P → Q) (p : Program P) : Program Q :=
  ⟨p.functions.map (Function.map f), p.body.map f⟩

def Expr.shape (e : Expr P) : Expr Unit :=
  e.map fun _ => ()

def Actor.shape (a : Actor P) : Actor Unit :=
  a.map fun _ => ()

/-- A program apart from its places. -/
def Program.shape (p : Program P) : Program Unit :=
  p.map fun _ => ()

end ActorLang
