import ActorLang.Proofs.Printer.WellFormed
import ActorLang.Tree.Relocate

/-!
# Places do not matter to the printer

A tree at other places is printed as the same text, and it declares and calls the same functions.
-/

namespace ActorLang

variable {P Q : Type} (f : P → Q)

theorem commaList_map_congr {α β : Type} {g : α → β} {x : α → String} {y : β → String}
    (h : ∀ a, y (g a) = x a) (as : List α) :
    commaList ((as.map g).map y) = commaList (as.map x) := by
  rw [List.map_map]
  exact congrArg commaList (List.map_congr_left fun a _ => h a)

theorem Reference.render_map (r : Reference P) : (r.map f).render = r.render := by
  cases r <;> rfl

theorem Artifact.render_map (a : Artifact P) : (a.map f).render = a.render := by
  cases a with
  | literal type source pos =>
      exact congrArg ("ArtifactFactory.create(" ++ type.name ++ ", " ++ · ++ ")")
        (source.render_map f)
  | named id => rfl

theorem MapItem.render_map (i : MapItem P) : (i.map f).render = i.render := by
  obtain ⟨key, value⟩ := i
  match value with
  | none => rfl
  | some (.artifact a) => exact congrArg (key.quoted ++ ": " ++ ·) (a.render_map f)
  | some (.artifactType type) => rfl
  | some (.quoted id) => rfl

theorem ArgMap.render_map (m : ArgMap P) : (m.map f).render = m.render :=
  congrArg ("\x7b" ++ · ++ "\x7d") (commaList_map_congr (MapItem.render_map f) m.items)

theorem Expr.isBinary_map (e : Expr P) : (e.map f).isBinary = e.isBinary := by
  cases e <;> rfl

theorem Expr.endsInNot_map (e : Expr P) : (e.map f).endsInNot = e.endsInNot := by
  cases e with
  | binary left op opPos right => cases right <;> rfl
  | _ => rfl

theorem Expr.render_map (e : Expr P) : (e.map f).render = e.render := by
  induction e with
  | not operand pos ih => exact congrArg ("NOT " ++ ·) ih
  | parens inner pos ih => exact congrArg inParens ih
  | instanceOf | elementOf | named => rfl
  | binary left op opPos right ihl ihr =>
      change (if (left.map f).endsInNot then inParens (left.map f).render
          else (left.map f).render) ++
        " " ++ op.text ++ " " ++
        (if (right.map f).isBinary then inParens (right.map f).render else (right.map f).render) = _
      rw [ihl, ihr, Expr.endsInNot_map, Expr.isBinary_map]
      rfl

theorem Actor.render_map (a : Actor P) : (a.map f).render = a.render := by
  induction a with
  | atomic type source pos =>
      exact congrArg ("ActorFactory.create(" ++ type.name ++ ", " ++ · ++ ")") (source.render_map f)
  | call name args =>
      exact congrArg (name.name ++ inParens ·) (commaList_map_congr (fun _ => rfl) args)
  | joiner type merge output pos =>
      exact congrArg ("Joiner(" ++ type.name ++ ", " ++ · ++ ", " ++ output.quoted ++ ")")
        (merge.render_map f)
  | copy map pos => exact congrArg ("Copy(" ++ · ++ ")") (map.render_map f)
  | rename map pos => exact congrArg ("Rename(" ++ · ++ ")") (map.render_map f)
  | identity target pos ih => exact congrArg ("Identity(" ++ · ++ ")") ih
  | identityMap target pos => exact congrArg ("Identity(" ++ · ++ ")") (target.render_map f)
  | sequence a b pos iha ihb =>
      exact congrArg₂ ("SEQUENCE(" ++ · ++ ", " ++ · ++ ")") iha ihb
  | parallel a b pos iha ihb =>
      exact congrArg₂ ("PARALLEL(" ++ · ++ ", " ++ · ++ ")") iha ihb
  | ifThenElse e a b pos iha ihb =>
      change "ITE(" ++ (e.map f).render ++ ", " ++ (a.map f).render ++ ", " ++ (b.map f).render ++
        ")" = _
      rw [e.render_map, iha, ihb]
      rfl
  | iterate watched body pos ih =>
      exact congrArg ("REPEAT(" ++ watched.quoted ++ ", " ++ · ++ ")") ih
  | parens inner pos ih => exact congrArg inParens ih
  | testSpecToSpec | specToTestSpec | named => rfl

theorem Actor.isName_map (a : Actor P) : (a.map f).isName = a.isName := by
  induction a with
  | parens inner pos ih => exact ih
  | _ => rfl

theorem Assignable.render_map (v : Assignable P) : (v.map f).render = v.render := by
  cases v with
  | expression e => exact e.render_map f
  | artifact a => exact a.render_map f
  | argMap m => exact m.render_map f
  | actor a => simp only [Assignable.map, Assignable.render, a.isName_map, a.render_map]
  | literal l => rfl

theorem Statement.render_map (st : Statement P) : (st.map f).render = st.render := by
  cases st with
  | assign target value => exact congrArg (target.name ++ " = " ++ ·) (value.render_map f)
  | print actor pos => exact congrArg ("print(" ++ · ++ ")") (actor.render_map f)
  | execute actor inputs pos =>
      have hinputs : (inputs.map f).render = inputs.render := by
        cases inputs with
        | named id => rfl
        | argMap m => exact m.render_map f
      exact congrArg₂ ("execute(" ++ · ++ ", " ++ · ++ ")") (actor.render_map f) hinputs
  | ret => rfl

theorem Block.render_map (b : Block P) (margin : Nat) :
    (b.map f).render margin = b.render margin := by
  simp only [Block.render, Block.map, List.map_map, Function.comp_def, Statement.render_map]

theorem Function.render_map (g : Function P) (layout : Layout) :
    (g.map f).render layout = g.render layout := by
  have hparams : commaList ((g.params.map (Ident.map f)).map Ident.name) =
      commaList (g.params.map Ident.name) := commaList_map_congr (fun _ => rfl) _
  simp only [Function.render, Function.map, hparams, Block.render_map]
  rfl

/-- The printed form does not depend on places. -/
theorem Program.render_map (p : Program P) (layout : Layout) :
    (p.map f).render layout = p.render layout := by
  simp only [Program.render, Program.map, List.map_map, Function.comp_def, Function.render_map,
    Block.render_map]

theorem Actor.callees_map (a : Actor P) : (a.map f).callees = a.callees := by
  induction a with
  | identity target pos ih => exact ih
  | iterate watched body pos ih => exact ih
  | parens inner pos ih => exact ih
  | sequence a b pos iha ihb => exact congrArg₂ (· ++ ·) iha ihb
  | parallel a b pos iha ihb => exact congrArg₂ (· ++ ·) iha ihb
  | ifThenElse e a b pos iha ihb => exact congrArg₂ (· ++ ·) iha ihb
  | _ => rfl

theorem Statement.callees_map (st : Statement P) : (st.map f).callees = st.callees := by
  cases st with
  | assign target value =>
      cases value with
      | actor a => exact a.callees_map f
      | _ => rfl
  | print actor pos => exact actor.callees_map f
  | execute actor inputs pos => exact actor.callees_map f
  | ret => rfl

theorem Program.callees_map (p : Program P) : (p.map f).callees = p.callees := by
  have hblock : ∀ b : Block P, (b.map f).callees = b.callees := fun b => by
    simp only [Block.callees, Block.map, List.flatMap_map, Statement.callees_map]
  simp only [Program.callees, Program.map, List.flatMap_map, Function.map, Ident.map, hblock]

end ActorLang
