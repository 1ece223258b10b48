import ActorLang.Proofs.Parser.Expr

/-!
# Operands in parentheses

Where a tree groups operands in a way that bare text would not keep, the printer adds parentheses.
`Expr.grouped` makes them nodes of the tree. The result is normal and differs from the tree in
parentheses only, and a normal tree is its own result.
-/

namespace ActorLang

variable {P : Type}

namespace Expr

def Filled : Expr P → Prop
  | not operand _ => operand.Filled
  | elementOf _ verdicts _ => verdicts ≠ []
  | parens inner _ => inner.Filled
  | binary left _ _ right => left.Filled ∧ right.Filled
  | instanceOf .. | named _ => True

/-- The expression with a node for all parentheses around operands that are only printed. -/
def grouped : Expr P → Expr P
  | not operand pos => .not operand.grouped pos
  | instanceOf subject type pos => .instanceOf subject type pos
  | elementOf subject verdicts pos => .elementOf subject verdicts pos
  | named id => .named id
  | parens inner pos => .parens inner.grouped pos
  | binary left op opPos right =>
    .binary (if left.endsInNot then .parens left.grouped left.pos else left.grouped) op opPos
      (if right.isBinary then .parens right.grouped right.pos else right.grouped)

/-- The expression without its parentheses. What they grouped stays grouped. -/
def bare : Expr P → Expr P
  | not operand pos => .not operand.bare pos
  | instanceOf subject type pos => .instanceOf subject type pos
  | elementOf subject verdicts pos => .elementOf subject verdicts pos
  | named id => .named id
  | parens inner _ => inner.bare
  | binary left op opPos right => .binary left.bare op opPos right.bare

@[simp] theorem isBinary_grouped (e : Expr P) : e.grouped.isBinary = e.isBinary := by
  cases e <;> rfl

@[simp] theorem isNot_grouped (e : Expr P) : e.grouped.isNot = e.isNot := by
  cases e <;> rfl

@[simp] theorem endsInNot_grouped (e : Expr P) : e.grouped.endsInNot = e.endsInNot := by
  cases e with
  | binary left op opPos right =>
      cases hright : right.isBinary with
      | false => simp [grouped, endsInNot, hright]
      | true => cases right <;> simp_all [grouped, endsInNot, isBinary, isNot]
  | _ => rfl

/-- With a node for all printed parentheses, no operand needs any more of them. -/
theorem normal_grouped {e : Expr P} (h : e.Filled) : e.grouped.Normal := by
  induction e with
  | not operand pos ih => exact ih h
  | parens inner pos ih => exact ih h
  | elementOf subject verdicts pos => exact h
  | instanceOf | named => trivial
  | binary left op opPos right ihl ihr =>
      have hleft := ihl h.1
      have hright := ihr h.2
      refine ⟨?_, ?_, ?_, ?_⟩
      · split
        · exact hleft
        · exact hleft
      · split
        · exact hright
        · exact hright
      · split
        · rfl
        · rename_i hnot
          simpa using hnot
      · split
        · rfl
        · rename_i hbinary
          simpa using hbinary

theorem Normal.filled {e : Expr P} (h : e.Normal) : e.Filled := by
  induction e with
  | not operand pos ih => exact ih h
  | parens inner pos ih => exact ih h
  | elementOf subject verdicts pos => exact h
  | instanceOf | named => trivial
  | binary left op opPos right ihl ihr => exact ⟨ihl h.1, ihr h.2.1⟩

/-- A tree that the parser can give has all its parentheses as nodes. -/
theorem Normal.grouped_eq {e : Expr P} (h : e.Normal) : e.grouped = e := by
  induction e with
  | not operand pos ih => rw [grouped, ih h]
  | parens inner pos ih => rw [grouped, ih h]
  | instanceOf | elementOf | named => rfl
  | binary left op opPos right ihl ihr =>
      obtain ⟨hl, hr, hnot, hbinary⟩ := h
      simp [grouped, ihl hl, ihr hr, hnot, hbinary]

theorem bare_grouped (e : Expr P) : e.grouped.bare = e.bare := by
  induction e with
  | not operand pos ih => rw [grouped, bare, ih, bare]
  | parens inner pos ih => rw [grouped, bare, ih, bare]
  | instanceOf | elementOf | named => rfl
  | binary left op opPos right ihl ihr =>
      cases hl : left.endsInNot <;> cases hr : right.isBinary <;>
        simp [grouped, bare, hl, hr, ihl, ihr]

end Expr

/-! ## All expressions of a tree -/

section Change

variable (f : Expr P → Expr P)

def Actor.mapExprs : Actor P → Actor P
  | identity target pos => .identity target.mapExprs pos
  | sequence first second pos => .sequence first.mapExprs second.mapExprs pos
  | ifThenElse condition thenActor elseActor pos =>
    .ifThenElse (f condition) thenActor.mapExprs elseActor.mapExprs pos
  | iterate watched body pos => .iterate watched body.mapExprs pos
  | parallel first second pos => .parallel first.mapExprs second.mapExprs pos
  | parens inner pos => .parens inner.mapExprs pos
  | a => a

def Assignable.mapExprs : Assignable P → Assignable P
  | expression e => .expression (f e)
  | actor a => .actor (a.mapExprs f)
  | v => v

def Statement.mapExprs : Statement P → Statement P
  | assign target value => .assign target (value.mapExprs f)
  | print actor pos => .print (actor.mapExprs f) pos
  | execute actor inputs pos => .execute (actor.mapExprs f) inputs pos
  | ret value pos => .ret value pos

def Block.mapExprs (b : Block P) : Block P :=
  ⟨b.statements.map (Statement.mapExprs f), b.pos⟩

def Function.mapExprs (g : Function P) : Function P :=
  ⟨g.name, g.params, g.body.mapExprs f, g.pos⟩

def Program.mapExprs (p : Program P) : Program P :=
  ⟨p.functions.map (Function.mapExprs f), p.body.mapExprs f⟩

end Change

def Program.grouped (p : Program P) : Program P :=
  p.mapExprs Expr.grouped

/-- The program without the parentheses of its expressions. -/
def Program.bare (p : Program P) : Program P :=
  p.mapExprs Expr.bare

section Change

variable {f g : Expr P → Expr P}

theorem Actor.mapExprs_mapExprs (a : Actor P) :
    (a.mapExprs f).mapExprs g = a.mapExprs fun e => g (f e) := by
  induction a with
  | identity target pos ih => simp only [mapExprs, ih]
  | sequence first second pos ih₁ ih₂ => simp only [mapExprs, ih₁, ih₂]
  | ifThenElse condition a b pos ih₁ ih₂ => simp only [mapExprs, ih₁, ih₂]
  | iterate watched body pos ih => simp only [mapExprs, ih]
  | parallel first second pos ih₁ ih₂ => simp only [mapExprs, ih₁, ih₂]
  | parens inner pos ih => simp only [mapExprs, ih]
  | _ => rfl

theorem Statement.mapExprs_mapExprs (st : Statement P) :
    (st.mapExprs f).mapExprs g = st.mapExprs fun e => g (f e) := by
  cases st with
  | assign target value =>
      cases value <;> simp [Statement.mapExprs, Assignable.mapExprs, Actor.mapExprs_mapExprs]
  | print actor pos => simp only [Statement.mapExprs, Actor.mapExprs_mapExprs]
  | execute actor inputs pos => simp only [Statement.mapExprs, Actor.mapExprs_mapExprs]
  | ret => rfl

theorem Block.mapExprs_mapExprs (b : Block P) :
    (b.mapExprs f).mapExprs g = b.mapExprs fun e => g (f e) := by
  simp [Block.mapExprs, Statement.mapExprs_mapExprs]

theorem Program.mapExprs_mapExprs (p : Program P) :
    (p.mapExprs f).mapExprs g = p.mapExprs fun e => g (f e) := by
  simp [Program.mapExprs, Function.mapExprs, Block.mapExprs_mapExprs]

/-- Parentheses that are only printed change no grouping. -/
theorem Program.bare_grouped (p : Program P) : p.grouped.bare = p.bare := by
  rw [grouped, bare, mapExprs_mapExprs, bare]
  exact congrArg p.mapExprs (funext Expr.bare_grouped)

end Change

end ActorLang
