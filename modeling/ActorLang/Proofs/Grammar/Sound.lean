import ActorLang.Proofs.Grammar.Derivation
import ActorLang.Proofs.Parser.Program

/-!
# Rows of trees are derivable

The classes of every row of a tree are derivable from the rule of the tree, hence whatever the
parser accepts is derivable.
-/

namespace ActorLang

variable {P α : Type}

open Leaf Form

/-! ## Lists -/

theorem Form.Derives.commaRow {f : Form} {row : α → List (Leaf P)} {as : List α} (hne : as ≠ [])
    (h : ∀ a ∈ as, f.Derives ((row a).map Leaf.kind)) :
    (commaList f).Derives ((commaRow row as).map Leaf.kind) := by
  obtain ⟨a, as, rfl⟩ := List.exists_cons_of_ne_nil hne
  obtain ⟨ha, has⟩ := List.forall_mem_cons.1 h
  have hkinds : (as.flatMap fun b => Leaf.mark .comma :: row b).map Leaf.kind =
      (as.map fun b => .comma :: (row b).map Leaf.kind).flatten := by
    rw [List.map_flatMap, List.flatMap_def]
    rfl
  rw [Leaf.commaRow, List.map_append, hkinds]
  refine .cons ha (.last (.stars ?_))
  simp only [List.forall_mem_map]
  intro b hb
  exact .mark _ (.last (has b hb))

/-- Rows of one form behind each other are a repetition of the form. -/
theorem Form.Derives.concat {f : Form} {R : α → List (Leaf P) → Prop}
    (h : ∀ a ls, R a ls → f.Derives (ls.map Leaf.kind)) {as : List α} {ls : List (Leaf P)}
    (hls : Concat R as ls) : (Form.star f).Derives (ls.map Leaf.kind) := by
  induction as generalizing ls with
  | nil =>
      obtain rfl : ls = [] := hls
      exact .starNil
  | cons a as ih =>
      obtain ⟨row, rest, ha, hrest, rfl⟩ := hls
      rw [List.map_append]
      exact .starCons (h a row ha) (ih hrest)

/-! ## Trees -/

theorem Ident.derives_row {ids : List (Ident P)} (hne : ids ≠ []) :
    (rule .idList).Derives ((Ident.row ids).map Leaf.kind) :=
  .rule (.commaRow hne fun _ _ => .token .ident)

theorem Ident.derives_optRow (ids : List (Ident P)) :
    (opt (rule .idList)).Derives ((Ident.row ids).map Leaf.kind) := by
  cases ids with
  | nil => exact .optNone
  | cons id ids => exact .optSome (derives_row (by simp))

theorem Ident.derives_quotedLeaves (id : Ident P) :
    (rule .quotedId).Derives (id.quotedLeaves.map Leaf.kind) :=
  .rule (.mark _ (.mark _ (.last (.token _))))

theorem Reference.derives_leaf (r : Reference P) :
    (alt (token .ident) (token .str)).Derives [r.leaf.kind] := by
  cases r with
  | name id => exact .left (.token _)
  | literal lit => exact .right (.token _)

theorem Reference.derives_factoryLeaves {r : Rule} (hr : r.production = token .typeName)
    (kind : TokenKind) (type : TypeIdent P) (source : Reference P) (pos : P) :
    (row [token kind, rule r, token .comma, alt (token .ident) (token .str),
      token .rparen]).Derives ((source.factoryLeaves kind type pos).map Leaf.kind) :=
  .mark _ (.ruleMark hr (.mark _ (.cons source.derives_leaf (.last (.token _)))))

theorem Artifact.derives_leaves (a : Artifact P) :
    (rule .artifact).Derives (a.leaves.map Leaf.kind) := by
  cases a with
  | literal type source pos =>
      exact .rule (.nth 0 rfl (source.derives_factoryLeaves rfl _ type pos))
  | named id => exact .rule (.nth 1 rfl (.token _))

theorem MapItem.derives_leaves (i : MapItem P) :
    (rule .mapItem).Derives (i.leaves.map Leaf.kind) := by
  obtain ⟨key, value⟩ := i
  rw [MapItem.leaves, List.map_append]
  refine .rule (.cons key.derives_quotedLeaves (.last ?_))
  match value with
  | none => exact .optNone
  | some (.artifact a) =>
      exact .optSome (.mark _ (.last (.nth 0 rfl a.derives_leaves)))
  | some (.artifactType type) =>
      exact .optSome (.mark _ (.last (.nth 1 rfl (.rule (.token _)))))
  | some (.quoted id) =>
      exact .optSome (.mark _ (.last (.nth 2 rfl
        id.derives_quotedLeaves)))

theorem ArgMap.derives_leaves {m : ArgMap P} (hne : m.items ≠ []) :
    (rule .argMap).Derives (m.leaves.map Leaf.kind) := by
  rw [ArgMap.leaves, List.map_cons, List.map_append]
  refine .rule (.mark _ (.cons (.rule ?_) (.last (.token _))))
  exact .commaRow hne fun i _ => i.derives_leaves

/-- A row of an expression is derivable however its operators are grouped. -/
theorem Expr.derives_leaves {e : Expr P} (h : e.Normal) :
    (rule .exp).Derives (e.leaves.map Leaf.kind) := by
  refine .rule ?_
  induction e with
  | binary left op opPos right ihl ihr =>
      refine .nth 0 rfl ?_
      rw [Expr.leaves, List.map_append]
      exact .cons (.rule (ihl h.1)) (.mark _ (.last (.rule (ihr h.2.1))))
  | not operand pos ih =>
      exact .nth 1 rfl (.mark _ (.last (.rule (ih h))))
  | instanceOf subject type pos =>
      refine .nth 2 rfl ?_
      exact .mark _ (.mark _ (.mark _ (.mark _ (.ruleMark rfl (.last (.token _))))))
  | elementOf subject verdicts pos =>
      refine .nth 3 rfl ?_
      have hverdicts : (rule .verdictList).Derives
          ((Leaf.commaRow (P := P) (fun v : Verdict => [v.leaf]) verdicts).map Leaf.kind) :=
        .rule (.commaRow h fun _ _ => .token .verdict)
      rw [Expr.leaves]
      simp only [List.map_cons, List.map_append]
      exact .mark _ (.mark _ (.mark _ (.mark _ (.mark _ (.cons hverdicts
        (.mark _ (.last (.token _))))))))
  | named id => exact .nth 4 rfl (.token _)
  | parens inner pos ih =>
      refine .nth 5 rfl ?_
      rw [Expr.leaves, List.map_cons, List.map_append]
      exact .mark _ (.cons (.rule (ih h)) (.last (.token _)))

theorem Actor.Flat.derives_leaves {a : Actor P} (h : a.Flat) :
    (rule .actor).Derives ((a.leaves .plain).map Leaf.kind) := by
  have hutility : (rule .utilityActor).Derives ((a.leaves .plain).map Leaf.kind) →
      (rule .actor).Derives ((a.leaves .plain).map Leaf.kind) := fun hu =>
    .rule (.nth 3 rfl hu)
  cases a with
  | atomic type source pos =>
      exact .rule (.nth 0 rfl (source.derives_factoryLeaves rfl _ type pos))
  | call name args =>
      refine .rule (.nth 2 rfl ?_)
      simp only [Actor.leaves, Script.plain_call, List.map_append, List.map_cons, List.map_nil,
        List.cons_append, List.nil_append]
      exact .mark _ (.mark _ (.cons (Ident.derives_optRow args) (.last (.token _))))
  | joiner type merge output pos =>
      refine hutility (.rule (.nth 0 rfl ?_))
      simp only [Actor.leaves, List.map_append, List.map_cons]
      exact .mark _ (.mark _ (.ruleMark rfl (.mark _ (.cons (ArgMap.derives_leaves h)
        (.mark _ (.cons output.derives_quotedLeaves (.last (.token _))))))))
  | copy map pos =>
      refine hutility (.rule (.nth 1 rfl ?_))
      simp only [Actor.leaves, List.map_append, List.map_cons]
      exact .mark _ (.mark _ (.cons (ArgMap.derives_leaves h) (.last (.token _))))
  | rename map pos =>
      refine hutility (.rule (.nth 2 rfl ?_))
      simp only [Actor.leaves, List.map_append, List.map_cons]
      exact .mark _ (.mark _ (.cons (ArgMap.derives_leaves h) (.last (.token _))))
  | testSpecToSpec pos =>
      exact hutility (.rule (.nth 3 rfl (.token _)))
  | specToTestSpec pos =>
      exact hutility (.rule (.nth 4 rfl (.token _)))
  | identityMap target pos =>
      refine hutility (.rule (.nth 5 rfl ?_))
      simp only [Actor.leaves, List.map_append, List.map_cons]
      exact .mark _ (.mark _ (.cons (.right (ArgMap.derives_leaves h)) (.last (.token _))))
  | named id =>
      exact .rule (.nth 8 rfl (.token _))
  | identity | sequence | ifThenElse | iterate | parallel | parens => exact h.elim

/-- Calls of the factory around an actor are derived along with it. -/
theorem Actor.Spelling.derives {n : Nat} {a : Actor P} {ls : List (Leaf P)}
    (h : a.Spelling n ls) : (rule .actor).Derives (ls.map Leaf.kind) := by
  induction h with
  | flat hflat => exact hflat.derives_leaves
  | wrapped h ih =>
      refine .rule (.nth 1 rfl ?_)
      simp only [List.map_cons, List.map_append]
      exact .mark _ (.cons ih (.last (.token _)))
  | identity h pos ih =>
      refine .rule (.nth 3 rfl (.rule (.nth 5 rfl ?_)))
      simp only [List.map_cons, List.map_append]
      exact .mark _ (.mark _ (.cons (.left ih) (.last (.token _))))
  | sequence ha hb pos iha ihb =>
      refine .rule (.nth 4 rfl ?_)
      simp only [List.map_cons, List.map_append]
      exact .mark _ (.mark _ (.cons iha (.mark _ (.cons ihb (.last (.token _))))))
  | ifThenElse he hd ha hb pos iha ihb =>
      refine .rule (.nth 5 rfl ?_)
      simp only [List.map_cons, List.map_append]
      exact .mark _ (.mark _ (.cons (Expr.derives_leaves he)
        (.mark _ (.cons iha (.mark _ (.cons ihb (.last (.token _))))))))
  | iterate watched ha pos iha =>
      refine .rule (.nth 6 rfl ?_)
      simp only [List.map_cons, List.map_append]
      exact .mark _ (.mark _ (.cons watched.derives_quotedLeaves
        (.mark _ (.cons iha (.last (.token _))))))
  | parallel ha hb pos iha ihb =>
      refine .rule (.nth 7 rfl ?_)
      simp only [List.map_cons, List.map_append]
      exact .mark _ (.mark _ (.cons iha (.mark _ (.cons ihb (.last (.token _))))))
  | parens h pos ih =>
      refine .rule (.nth 9 rfl ?_)
      simp only [List.map_cons, List.map_append]
      exact .mark _ (.cons ih (.last (.token _)))

/-! ## Statements and programs -/

theorem Assignable.Spelling.derives {limits : Limits} {room : Nat} {v : Assignable P}
    {ls : List (Leaf P)} (h : v.Spelling limits room ls) :
    (rule .assignable).Derives (ls.map Leaf.kind) := by
  obtain ⟨-, h⟩ := h
  cases v with
  | expression e =>
      obtain ⟨hn, -, rfl⟩ := h
      exact .rule (.nth 0 rfl (Expr.derives_leaves hn))
  | artifact a =>
      cases a with
      | named id => exact h.elim
      | literal type source pos =>
          subst h
          exact .rule (.nth 1 rfl
            (Artifact.literal type source pos).derives_leaves)
  | argMap m =>
      obtain ⟨hne, rfl⟩ := h
      exact .rule (.nth 2 rfl (ArgMap.derives_leaves hne))
  | actor a => exact .rule (.nth 3 rfl h.1.derives)
  | literal l =>
      subst h
      exact .rule (.nth 4 rfl (.token _))

theorem Inputs.derives_leaves {i : Inputs P} (h : i.Filled) :
    (alt (token .ident) (rule .argMap)).Derives (i.leaves.map Leaf.kind) := by
  cases i with
  | named id => exact .left (.token _)
  | argMap m => exact .right (ArgMap.derives_leaves h)

theorem Statement.Spelling.derives {limits : Limits} {st : Statement P} {ls : List (Leaf P)}
    (h : st.Spelling limits ls) : (rule .stmt).Derives (ls.map Leaf.kind) := by
  cases st with
  | assign target value =>
      obtain ⟨row, hrow, rfl⟩ := h
      exact .rule (.nth 0 rfl (.rule (.mark _ (.mark _ (.last hrow.derives)))))
  | print a pos =>
      obtain ⟨row, hrow, rfl⟩ := h
      simp only [List.map_cons, List.map_append]
      exact .rule (.nth 1 rfl (.rule (.nth 0 rfl
        (.mark _ (.cons hrow.derives (.last (.token _)))))))
  | execute a i pos =>
      obtain ⟨row, hrow, hi, rfl⟩ := h
      simp only [List.map_cons, List.map_append]
      exact .rule (.nth 1 rfl (.rule (.nth 1 rfl
        (.mark _ (.cons hrow.derives (.mark _ (.cons (Inputs.derives_leaves hi)
          (.last (.token _)))))))))
  | ret value pos =>
      obtain rfl := h
      exact .rule (.nth 2 rfl (.rule (.mark _ (.last (.token _)))))

theorem Statement.derives_lines {limits : Limits} {sts : List (Statement P)}
    {rows : List (Leaf P)} (h : Concat (Statement.Line limits) sts rows) :
    (rule .stmtBlock).Derives (rows.map Leaf.kind) := by
  refine .rule (.concat ?_ h)
  rintro st _ ⟨row, hrow, rfl⟩
  rw [List.map_append]
  exact .cons hrow.derives (.last (.token _))

theorem Function.Spelling.derives {limits : Limits} {f : Function P} {ls : List (Leaf P)}
    (h : f.Spelling limits ls) : (rule .funDecl).Derives (ls.map Leaf.kind) := by
  obtain ⟨_, ⟨rows, hrows, rfl⟩, rfl⟩ := h
  simp only [List.map_cons, List.map_append, map_kind_pin]
  exact .rule (.mark _ (.mark _ (.mark _ (.cons (Ident.derives_optRow f.params)
    (.mark _ (.mark _ (.cons (Statement.derives_lines hrows) (.last (.token _)))))))))

theorem Program.Spelling.derives {limits : Limits} {p : Program P} {ls : List (Leaf P)}
    (h : p.Spelling limits ls) : (rule .program).Derives (ls.map Leaf.kind) := by
  obtain ⟨fs, _, hfs, ⟨rows, hrows, rfl⟩, rfl⟩ := h
  simp only [List.map_append, map_kind_pin]
  exact .rule (.cons (.concat (fun _ _ hf => Function.Spelling.derives hf) hfs)
    (.cons (Statement.derives_lines hrows) (.last (.token _))))

end ActorLang
