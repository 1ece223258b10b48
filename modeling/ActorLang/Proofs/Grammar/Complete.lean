import ActorLang.Proofs.Grammar.Sound

/-!
# Derivable rows are rows of trees

Every derivable row of tokens is a row of some tree that the parser can read. The tree is found by
giving each rule its meaning, "the tokens match a row of a tree of this sort", and checking that
the meanings are closed under the productions. Two productions need more than their parts: joining
two expressions by an operator must regroup them, and an actor that is only a name must be taken as
an expression where it is assigned.
-/

namespace ActorLang

variable {P α : Type}

open Leaf Form

/-! ## Joining expressions -/

namespace Expr

/-- An operator and its right operand behind an expression: they belong to a negation at its end,
if there is one. -/
def extend (op : BinOp) (opPos : P) (right : Expr P) : Expr P → Expr P
  | not operand pos => not (extend op opPos right operand) pos
  | binary left o p (not operand pos) => binary left o p (not (extend op opPos right operand) pos)
  | e => binary e op opPos right

/-- Two expressions with an operator between them, grouped to the left as far as possible. -/
def join (left : Expr P) (op : BinOp) (opPos : P) : Expr P → Expr P
  | binary l o p r => extend o p r (join left op opPos l)
  | right => extend op opPos right left

theorem leaves_extend (op : BinOp) (opPos : P) (right e : Expr P) :
    (extend op opPos right e).leaves = e.leaves ++ word .binOp op.text opPos :: right.leaves := by
  fun_induction extend op opPos right e with
  | case1 operand pos ih => simp [leaves, ih]
  | case2 left o p operand pos ih => simp [leaves, ih]
  | case3 e => rfl

theorem normal_extend {op : BinOp} {opPos : P} {right e : Expr P} (he : e.Normal)
    (hr : right.Normal) (hb : right.isBinary = false) : (extend op opPos right e).Normal := by
  fun_induction extend op opPos right e with
  | case1 operand pos ih => exact ih he
  | case2 left o p operand pos ih => exact ⟨he.1, ih he.2.1, he.2.2.1, rfl⟩
  | case3 e hnot hbin =>
      refine ⟨he, hr, ?_, hb⟩
      cases e with
      | not operand pos => exact absurd rfl (hnot operand pos)
      | binary left o p r =>
          cases r with
          | not operand pos => exact absurd rfl (hbin left o p operand pos)
          | _ => rfl
      | _ => rfl

theorem leaves_join (left : Expr P) (op : BinOp) (opPos : P) (right : Expr P) :
    (join left op opPos right).leaves =
      left.leaves ++ word .binOp op.text opPos :: right.leaves := by
  induction right with
  | binary l o p r ihl ihr => simp [join, leaves_extend, ihl, leaves]
  | _ => exact leaves_extend op opPos _ left

theorem normal_join {left right : Expr P} {op : BinOp} {opPos : P} (hl : left.Normal)
    (hr : right.Normal) : (join left op opPos right).Normal := by
  induction right with
  | binary l o p r ihl ihr => exact normal_extend (ihl hr.1) hr.2.1 hr.2.2.2
  | _ => exact normal_extend hl hr rfl

/-- Every level of nesting takes a token. -/
theorem depth_le_length (e : Expr P) : e.depth ≤ e.leaves.length := by
  induction e with
  | not | parens | binary => simp [depth, leaves]; omega
  | _ => simp [depth, leaves]

end Expr

theorem Actor.Spelling.mono {n m : Nat} {a : Actor P} {ls : List (Leaf P)}
    (h : a.Spelling n ls) (hm : n ≤ m) : a.Spelling m ls := by
  induction h generalizing m with
  | flat hflat =>
      obtain ⟨m, rfl⟩ : ∃ k, m = k + 1 := ⟨m - 1, by omega⟩
      exact .flat hflat
  | wrapped h ih =>
      obtain ⟨m, rfl⟩ : ∃ k, m = k + 1 := ⟨m - 1, by omega⟩
      exact .wrapped (ih (by omega))
  | identity h pos ih =>
      obtain ⟨m, rfl⟩ : ∃ k, m = k + 1 := ⟨m - 1, by omega⟩
      exact .identity (ih (by omega)) pos
  | sequence ha hb pos iha ihb =>
      obtain ⟨m, rfl⟩ : ∃ k, m = k + 1 := ⟨m - 1, by omega⟩
      exact .sequence (iha (by omega)) (ihb (by omega)) pos
  | ifThenElse he hd ha hb pos iha ihb =>
      obtain ⟨m, rfl⟩ : ∃ k, m = k + 1 := ⟨m - 1, by omega⟩
      exact .ifThenElse he (by omega) (iha (by omega)) (ihb (by omega)) pos
  | iterate watched ha pos iha =>
      obtain ⟨m, rfl⟩ : ∃ k, m = k + 1 := ⟨m - 1, by omega⟩
      exact .iterate watched (iha (by omega)) pos
  | parallel ha hb pos iha ihb =>
      obtain ⟨m, rfl⟩ : ∃ k, m = k + 1 := ⟨m - 1, by omega⟩
      exact .parallel (iha (by omega)) (ihb (by omega)) pos
  | parens h pos ih =>
      obtain ⟨m, rfl⟩ : ∃ k, m = k + 1 := ⟨m - 1, by omega⟩
      exact .parens (ih (by omega)) pos

/-! ## Rows from tokens -/

structure Token.Stands (t : Token P) (k : TokenKind) : Prop where
  kind : t.kind = k
  operator : k = .binOp → BinOp.ofText? t.text ≠ none
  verdict : k = .verdict → Verdict.ofText? t.text ≠ none

namespace Token.Stands

variable {t : Token P} {k : TokenKind}

theorem mark (h : t.Stands k) : (Leaf.mark k).Matches t :=
  matches_mark.2 h.kind

theorem key (h : t.Stands k) : (Leaf.key k t.pos).Matches t :=
  matches_key.2 ⟨h.kind, rfl⟩

theorem word (h : t.Stands k) : (Leaf.word k t.text t.pos).Matches t :=
  matches_word.2 (by rw [← h.kind])

end Token.Stands

def Token.Reads (R : α → List (Leaf P) → Prop) (ts : List (Token P)) : Prop :=
  ∃ a ls, R a ls ∧ List.Forall₂ Leaf.Matches ls ts

open Token (Stands Reads)

theorem Form.Holds.commaRow {I : Rule → List (Token P) → Prop} {f : Form}
    {g : α → List (Leaf P)}
    (hf : ∀ us, f.Holds Stands I us → ∃ a, List.Forall₂ Leaf.Matches (g a) us)
    {ts : List (Token P)} (h : (commaList f).Holds Stands I ts) :
    ∃ as, as ≠ [] ∧ List.Forall₂ Leaf.Matches (Leaf.commaRow g as) ts := by
  obtain ⟨us, _, hus, ⟨_, _, ⟨parts, hparts, rfl⟩, rfl, rfl⟩, rfl⟩ := h
  obtain ⟨a, ha⟩ := hf us hus
  have hrest : ∃ bs : List α, List.Forall₂ Leaf.Matches
      (bs.flatMap fun b => Leaf.mark .comma :: g b) parts.flatten := by
    clear ha
    induction parts with
    | nil => exact ⟨[], .nil⟩
    | cons part parts ih =>
        obtain ⟨hpart, hrest⟩ := List.forall_mem_cons.1 hparts
        obtain ⟨bs, hbs⟩ := ih hrest
        obtain ⟨_, _, ⟨t, ht, rfl⟩, ⟨vs, _, hvs, rfl, rfl⟩, rfl⟩ := hpart
        obtain ⟨b, hb⟩ := hf vs hvs
        refine ⟨b :: bs, ?_⟩
        rw [List.flatten_cons, List.append_nil, List.flatMap_cons]
        exact List.rel_append (.cons ht.mark hb) hbs
  obtain ⟨bs, hbs⟩ := hrest
  refine ⟨a :: bs, by simp, ?_⟩
  rw [List.append_nil]
  exact List.rel_append ha hbs

/-- A repetition, where only rows up to a length are known to be read. -/
theorem Form.Holds.concat {I : Rule → List (Token P) → Prop} {f : Form}
    {R : α → List (Leaf P) → Prop} {n : Nat}
    (hf : ∀ us, us.length ≤ n → f.Holds Stands I us → Reads R us) {ts : List (Token P)}
    (hn : ts.length ≤ n) (h : (Form.star f).Holds Stands I ts) : Reads (Concat R) ts := by
  obtain ⟨parts, hparts, rfl⟩ := h
  induction parts with
  | nil => exact ⟨[], [], rfl, .nil⟩
  | cons us parts ih =>
      obtain ⟨hus, hparts⟩ := List.forall_mem_cons.1 hparts
      simp only [List.flatten_cons, List.length_append] at hn
      obtain ⟨a, row, ha, hrow⟩ := hf us (by omega) hus
      obtain ⟨as, rest, has, hrest⟩ := ih hparts (by omega)
      exact ⟨a :: as, row ++ rest, ⟨row, rest, ha, has, rfl⟩, List.rel_append hrow hrest⟩

/-! ## Meanings -/

/-- What the tokens derivable from a rule are: a row of a tree, nested no deeper than it is long. -/
def Rule.Means (limits : Limits) : Rule → List (Token P) → Prop
  | .quotedId => Reads fun (id : Ident P) ls => ls = id.quotedLeaves
  | .artifactType | .actorType => Reads fun (type : TypeIdent P) ls => ls = [type.leaf]
  | .idList => Reads fun (ids : List (Ident P)) ls => ids ≠ [] ∧ ls = Ident.row ids
  | .verdictList =>
    Reads fun (vs : List Verdict) ls => vs ≠ [] ∧ ls = commaRow (fun v => [v.leaf]) vs
  | .artifact => Reads fun (a : Artifact P) ls => ls = a.leaves
  | .mapItem => Reads fun (i : MapItem P) ls => ls = i.leaves
  | .mapItemList =>
    Reads fun (is : List (MapItem P)) ls => is ≠ [] ∧ ls = commaRow MapItem.leaves is
  | .argMap => Reads fun (m : ArgMap P) ls => m.items ≠ [] ∧ ls = m.leaves
  | .exp => Reads fun (e : Expr P) ls => e.Normal ∧ ls = e.leaves
  | .actor | .utilityActor => Reads fun (a : Actor P) ls => a.Spelling ls.length ls
  | .assignable => fun ts =>
    ts.length ≤ limits.depth → Reads (Assignable.Spelling limits limits.depth) ts
  | .stmt | .specStmt | .execStmt | .returnStmt => fun ts =>
    ts.length ≤ limits.depth → Reads (Statement.Spelling limits) ts
  | .stmtBlock => fun ts =>
    ts.length ≤ limits.depth → Reads (Concat (Statement.Line limits)) ts
  | .funDecl => fun ts => ts.length ≤ limits.depth → Reads (Function.Spelling limits) ts
  | .program => fun ts => ts.length ≤ limits.depth → Reads (Program.Spelling limits) ts

section Closed

variable {limits : Limits} {ts : List (Token P)}

/-! ### Names and argument maps -/

theorem means_quotedId
    (h : (Rule.production .quotedId).Holds Stands (Rule.Means limits) ts) :
    Rule.Means limits .quotedId ts := by
  obtain ⟨_, _, ⟨t, ht, rfl⟩, ⟨_, _, ⟨u, hu, rfl⟩, ⟨_, _, ⟨v, hv, rfl⟩, rfl, rfl⟩, rfl⟩, rfl⟩ := h
  exact ⟨⟨u.text, u.pos⟩, _, rfl, .cons ht.mark (.cons hu.word (.cons hv.mark .nil))⟩

theorem means_idList (h : (Rule.production .idList).Holds Stands (Rule.Means limits) ts) :
    Rule.Means limits .idList ts := by
  obtain ⟨ids, hne, hm⟩ := Holds.commaRow (g := fun id : Ident P => [id.leaf]) (fun us hus => by
    obtain ⟨t, ht, rfl⟩ := hus
    exact ⟨⟨t.text, t.pos⟩, .cons ht.word .nil⟩) h
  exact ⟨ids, _, ⟨hne, rfl⟩, hm⟩

theorem Form.Holds.optRow (h : (opt (rule .idList)).Holds Stands (Rule.Means limits) ts) :
    ∃ ids : List (Ident P), List.Forall₂ Leaf.Matches (Ident.row ids) ts := by
  rcases h with ⟨ids, _, ⟨-, rfl⟩, hids⟩ | rfl
  · exact ⟨ids, hids⟩
  · exact ⟨[], .nil⟩

theorem means_verdictList
    (h : (Rule.production .verdictList).Holds Stands (Rule.Means limits) ts) :
    Rule.Means limits .verdictList ts := by
  obtain ⟨vs, hne, hm⟩ := Holds.commaRow (g := fun v : Verdict => [(v.leaf : Leaf P)])
    (fun us hus => by
      obtain ⟨t, ht, rfl⟩ := hus
      obtain ⟨v, hv⟩ := Option.ne_none_iff_exists'.1 (ht.verdict rfl)
      refine ⟨v, .cons ⟨ht.kind, ?_, by simp [Verdict.leaf]⟩ .nil⟩
      simp [Verdict.leaf, Verdict.ofText?_eq_some.1 hv]) h
  exact ⟨vs, _, ⟨hne, rfl⟩, hm⟩

/-- A type and a source behind an opening token. -/
theorem Form.Holds.factoryLeaves {r : Rule}
    (hr : ∀ us : List (Token P), Rule.Means limits r us ↔ Rule.Means limits .artifactType us)
    {k : TokenKind}
    (h : (row [token k, rule r, token .comma, alt (token .ident) (token .str),
      token .rparen]).Holds Stands (Rule.Means limits) ts) :
    ∃ (type : TypeIdent P) (source : Reference P) (pos : P),
      List.Forall₂ Leaf.Matches (source.factoryLeaves k type pos) ts := by
  obtain ⟨_, _, ⟨t, ht, rfl⟩, ⟨_, _, htype, ⟨_, _, ⟨u, hu, rfl⟩, ⟨us, _, hsource,
    ⟨_, _, ⟨v, hv, rfl⟩, rfl, rfl⟩, rfl⟩, rfl⟩, rfl⟩, rfl⟩ := h
  obtain ⟨type, _, rfl, htype⟩ : Reads (fun (type : TypeIdent P) ls => ls = [type.leaf]) _ :=
    (hr _).1 htype
  obtain ⟨w, hw, rfl⟩ := matches_singleton.1 htype
  have hs : ∃ source : Reference P, ∃ x, source.leaf.Matches x ∧ us = [x] := by
    rcases hsource with ⟨x, hx, rfl⟩ | ⟨x, hx, rfl⟩
    · exact ⟨.name ⟨x.text, x.pos⟩, x, hx.word, rfl⟩
    · exact ⟨.literal ⟨x.text, x.pos⟩, x, hx.word, rfl⟩
  obtain ⟨source, x, hx, rfl⟩ := hs
  exact ⟨type, source, t.pos,
    .cons ht.key (.cons hw (.cons hu.mark (.cons hx (.cons hv.mark .nil))))⟩

theorem means_artifact (h : (Rule.production .artifact).Holds Stands (Rule.Means limits) ts) :
    Rule.Means limits .artifact ts := by
  rcases h with h | ⟨t, ht, rfl⟩
  · obtain ⟨type, source, pos, hm⟩ := Holds.factoryLeaves (fun _ => Iff.rfl) h
    exact ⟨.literal type source pos, _, rfl, hm⟩
  · exact ⟨.named ⟨t.text, t.pos⟩, _, rfl, .cons ht.word .nil⟩

theorem means_mapItem (h : (Rule.production .mapItem).Holds Stands (Rule.Means limits) ts) :
    Rule.Means limits .mapItem ts := by
  obtain ⟨us, _, ⟨key, _, rfl, hkey⟩, ⟨vs, _, hvalue, rfl, rfl⟩, rfl⟩ := h
  rw [List.append_nil]
  suffices h : ∃ value, List.Forall₂ Leaf.Matches (MapItem.leaves ⟨key, value⟩) (us ++ vs) by
    obtain ⟨value, hv⟩ := h
    exact ⟨⟨key, value⟩, _, rfl, hv⟩
  rcases hvalue with ⟨_, _, ⟨t, ht, rfl⟩, ⟨ws, _, hws, rfl, rfl⟩, rfl⟩ | rfl
  · rw [List.append_nil]
    rcases hws with ⟨a, _, rfl, ha⟩ | ⟨type, _, rfl, htype⟩ | ⟨id, _, rfl, hid⟩
    · exact ⟨some (.artifact a), List.rel_append hkey (.cons ht.mark ha)⟩
    · exact ⟨some (.artifactType type), List.rel_append hkey (.cons ht.mark htype)⟩
    · exact ⟨some (.quoted id), List.rel_append hkey (.cons ht.mark hid)⟩
  · exact ⟨none, List.rel_append hkey .nil⟩

theorem means_mapItemList
    (h : (Rule.production .mapItemList).Holds Stands (Rule.Means limits) ts) :
    Rule.Means limits .mapItemList ts := by
  obtain ⟨items, hne, hm⟩ := Holds.commaRow (g := MapItem.leaves (P := P)) (fun us hus => by
    obtain ⟨i, _, rfl, hi⟩ := hus
    exact ⟨i, hi⟩) h
  exact ⟨items, _, ⟨hne, rfl⟩, hm⟩

theorem means_argMap (h : (Rule.production .argMap).Holds Stands (Rule.Means limits) ts) :
    Rule.Means limits .argMap ts := by
  obtain ⟨_, _, ⟨t, ht, rfl⟩, ⟨us, _, ⟨items, _, ⟨hne, rfl⟩, hitems⟩,
    ⟨_, _, ⟨u, hu, rfl⟩, rfl, rfl⟩, rfl⟩, rfl⟩ := h
  refine ⟨⟨items, t.pos⟩, _, ⟨hne, rfl⟩, .cons ht.key ?_⟩
  exact List.rel_append hitems (.cons hu.mark .nil)

/-! ### Expressions and actors -/

theorem means_exp (h : (Rule.production .exp).Holds Stands (Rule.Means limits) ts) :
    Rule.Means limits .exp ts := by
  rcases h with h | h | h | h | ⟨t, ht, rfl⟩ | h
  · obtain ⟨us, _, ⟨l, _, ⟨hl, rfl⟩, hus⟩, ⟨_, _, ⟨t, ht, rfl⟩,
      ⟨vs, _, ⟨r, _, ⟨hr, rfl⟩, hvs⟩, rfl, rfl⟩, rfl⟩, rfl⟩ := h
    obtain ⟨op, hop⟩ := Option.ne_none_iff_exists'.1 (ht.operator rfl)
    have hword : (word .binOp op.text t.pos).Matches t := by
      rw [← BinOp.ofText?_eq_some.1 hop]
      exact ht.word
    refine ⟨l.join op t.pos r, _, ⟨Expr.normal_join hl hr, rfl⟩, ?_⟩
    rw [Expr.leaves_join, List.append_nil]
    exact List.rel_append hus (.cons hword hvs)
  · obtain ⟨_, _, ⟨t, ht, rfl⟩, ⟨us, _, ⟨e, _, ⟨he, rfl⟩, hus⟩, rfl, rfl⟩, rfl⟩ := h
    rw [List.append_nil]
    exact ⟨.not e t.pos, _, ⟨he, rfl⟩, .cons ht.key hus⟩
  · obtain ⟨_, _, ⟨t, ht, rfl⟩, ⟨_, _, ⟨t₂, ht₂, rfl⟩, ⟨_, _, ⟨t₃, ht₃, rfl⟩,
      ⟨_, _, ⟨t₄, ht₄, rfl⟩, ⟨_, _, ⟨type, _, rfl, htype⟩, ⟨_, _, ⟨t₆, ht₆, rfl⟩, rfl, rfl⟩, rfl⟩,
      rfl⟩, rfl⟩, rfl⟩, rfl⟩ := h
    refine ⟨.instanceOf ⟨t₃.text, t₃.pos⟩ type t.pos, _, ⟨trivial, rfl⟩, .cons ht.key
      (.cons ht₂.mark (.cons ht₃.word (.cons ht₄.mark ?_)))⟩
    exact List.rel_append htype (.cons ht₆.mark .nil)
  · obtain ⟨_, _, ⟨t, ht, rfl⟩, ⟨_, _, ⟨t₂, ht₂, rfl⟩, ⟨_, _, ⟨t₃, ht₃, rfl⟩,
      ⟨_, _, ⟨t₄, ht₄, rfl⟩, ⟨_, _, ⟨t₅, ht₅, rfl⟩, ⟨us, _, ⟨vs, _, ⟨hne, rfl⟩, hvs⟩,
      ⟨_, _, ⟨t₇, ht₇, rfl⟩, ⟨_, _, ⟨t₈, ht₈, rfl⟩, rfl, rfl⟩, rfl⟩, rfl⟩, rfl⟩, rfl⟩, rfl⟩, rfl⟩,
      rfl⟩ := h
    refine ⟨.elementOf ⟨t₃.text, t₃.pos⟩ vs t.pos, _, ⟨hne, rfl⟩, .cons ht.key
      (.cons ht₂.mark (.cons ht₃.word (.cons ht₄.mark (.cons ht₅.mark ?_))))⟩
    exact List.rel_append hvs (.cons ht₇.mark (.cons ht₈.mark .nil))
  · exact ⟨.named ⟨t.text, t.pos⟩, _, ⟨trivial, rfl⟩, .cons ht.word .nil⟩
  · obtain ⟨_, _, ⟨t, ht, rfl⟩, ⟨us, _, ⟨e, _, ⟨he, rfl⟩, hus⟩,
      ⟨_, _, ⟨u, hu, rfl⟩, rfl, rfl⟩, rfl⟩, rfl⟩ := h
    refine ⟨.parens e t.pos, _, ⟨he, rfl⟩, .cons ht.key ?_⟩
    exact List.rel_append hus (.cons hu.mark .nil)

theorem Actor.Flat.reads {a : Actor P} (h : a.Flat)
    (hm : List.Forall₂ Leaf.Matches (a.leaves .plain) ts) :
    Reads (fun (a : Actor P) ls => a.Spelling ls.length ls) ts := by
  have hs : a.Spelling 1 (a.leaves .plain) := .flat h
  obtain ⟨l, rest, hls, -⟩ := hs.starts
  exact ⟨a, _, hs.mono (by simp [hls]), hm⟩

theorem means_utilityActor
    (h : (Rule.production .utilityActor).Holds Stands (Rule.Means limits) ts) :
    Rule.Means limits .utilityActor ts := by
  rcases h with h | h | h | ⟨t, ht, rfl⟩ | ⟨t, ht, rfl⟩ | h
  · obtain ⟨_, _, ⟨t, ht, rfl⟩, ⟨_, _, ⟨t₂, ht₂, rfl⟩, ⟨_, _, ⟨type, _, rfl, htype⟩,
      ⟨_, _, ⟨t₄, ht₄, rfl⟩, ⟨_, _, ⟨m, _, ⟨hne, rfl⟩, hm⟩, ⟨_, _, ⟨t₆, ht₆, rfl⟩,
      ⟨_, _, ⟨output, _, rfl, ho⟩, ⟨_, _, ⟨t₈, ht₈, rfl⟩, rfl, rfl⟩, rfl⟩, rfl⟩, rfl⟩, rfl⟩, rfl⟩,
      rfl⟩, rfl⟩ := h
    refine Actor.Flat.reads (a := .joiner type m output t.pos) hne (.cons ht.key
      (.cons ht₂.mark ?_))
    exact List.rel_append htype (.cons ht₄.mark (List.rel_append hm (.cons ht₆.mark
      (List.rel_append ho (.cons ht₈.mark .nil)))))
  · obtain ⟨_, _, ⟨t, ht, rfl⟩, ⟨_, _, ⟨t₂, ht₂, rfl⟩, ⟨_, _, ⟨m, _, ⟨hne, rfl⟩, hm⟩,
      ⟨_, _, ⟨t₄, ht₄, rfl⟩, rfl, rfl⟩, rfl⟩, rfl⟩, rfl⟩ := h
    exact Actor.Flat.reads (a := .copy m t.pos) hne (.cons ht.key (.cons ht₂.mark
      (List.rel_append hm (.cons ht₄.mark .nil))))
  · obtain ⟨_, _, ⟨t, ht, rfl⟩, ⟨_, _, ⟨t₂, ht₂, rfl⟩, ⟨_, _, ⟨m, _, ⟨hne, rfl⟩, hm⟩,
      ⟨_, _, ⟨t₄, ht₄, rfl⟩, rfl, rfl⟩, rfl⟩, rfl⟩, rfl⟩ := h
    exact Actor.Flat.reads (a := .rename m t.pos) hne (.cons ht.key (.cons ht₂.mark
      (List.rel_append hm (.cons ht₄.mark .nil))))
  · exact Actor.Flat.reads (a := .testSpecToSpec t.pos) trivial (.cons ht.key .nil)
  · exact Actor.Flat.reads (a := .specToTestSpec t.pos) trivial (.cons ht.key .nil)
  · obtain ⟨_, _, ⟨t, ht, rfl⟩, ⟨_, _, ⟨t₂, ht₂, rfl⟩, ⟨us, _, htarget,
      ⟨_, _, ⟨t₄, ht₄, rfl⟩, rfl, rfl⟩, rfl⟩, rfl⟩, rfl⟩ := h
    rcases htarget with ⟨a, ls, ha, hus⟩ | ⟨m, _, ⟨hne, rfl⟩, hus⟩
    · exact ⟨.identity a t.pos, _, (Actor.Spelling.identity ha t.pos).mono (by simp),
        .cons ht.key (.cons ht₂.mark (List.rel_append hus (.cons ht₄.mark .nil)))⟩
    · exact Actor.Flat.reads (a := .identityMap m t.pos) hne
        (.cons ht.key (.cons ht₂.mark (List.rel_append hus (.cons ht₄.mark .nil))))

/-- Two actors divided by a comma, with the closing parenthesis. -/
theorem Form.Holds.actorPair
    (h : (row [rule .actor, token .comma, rule .actor, token .rparen]).Holds Stands
      (Rule.Means limits) ts) :
    ∃ (a b : Actor P) (n : Nat) (ls ms : List (Leaf P)), a.Spelling n ls ∧ b.Spelling n ms ∧
      n = ls.length + ms.length ∧
      List.Forall₂ Leaf.Matches (ls ++ mark .comma :: (ms ++ [mark .rparen])) ts := by
  obtain ⟨_, _, ⟨a, ls, ha, hls⟩, ⟨_, _, ⟨t, ht, rfl⟩, ⟨_, _, ⟨b, ms, hb, hms⟩,
    ⟨_, _, ⟨u, hu, rfl⟩, rfl, rfl⟩, rfl⟩, rfl⟩, rfl⟩ := h
  refine ⟨a, b, _, ls, ms, ha.mono (by simp), hb.mono (by simp), rfl, ?_⟩
  exact List.rel_append hls (.cons ht.mark (List.rel_append hms (.cons hu.mark .nil)))

theorem means_actor (h : (Rule.production .actor).Holds Stands (Rule.Means limits) ts) :
    Rule.Means limits .actor ts := by
  rcases h with h | h | h | h | h | h | h | h | ⟨t, ht, rfl⟩ | h
  · obtain ⟨type, source, pos, hm⟩ := Holds.factoryLeaves (fun _ => Iff.rfl) h
    exact Actor.Flat.reads (a := .atomic type source pos) trivial hm
  · obtain ⟨_, _, ⟨t, ht, rfl⟩, ⟨us, _, ⟨a, ls, ha, hus⟩,
      ⟨_, _, ⟨u, hu, rfl⟩, rfl, rfl⟩, rfl⟩, rfl⟩ := h
    exact ⟨a, _, (Actor.Spelling.wrapped ha).mono (by simp),
      .cons ht.mark (List.rel_append hus (.cons hu.mark .nil))⟩
  · obtain ⟨_, _, ⟨t, ht, rfl⟩, ⟨_, _, ⟨t₂, ht₂, rfl⟩, ⟨us, _, hargs,
      ⟨_, _, ⟨t₄, ht₄, rfl⟩, rfl, rfl⟩, rfl⟩, rfl⟩, rfl⟩ := h
    obtain ⟨args, hargs⟩ := Holds.optRow hargs
    exact Actor.Flat.reads (a := .call ⟨t.text, t.pos⟩ args) trivial
      (.cons ht.word (.cons ht₂.mark (List.rel_append hargs (.cons ht₄.mark .nil))))
  · exact h
  · obtain ⟨_, _, ⟨t, ht, rfl⟩, ⟨_, _, ⟨t₂, ht₂, rfl⟩, h, rfl⟩, rfl⟩ := h
    obtain ⟨a, b, n, ls, ms, ha, hb, hn, hm⟩ := Holds.actorPair h
    exact ⟨.sequence a b t.pos, _, (Actor.Spelling.sequence ha hb t.pos).mono (by simp; omega),
      .cons ht.key (.cons ht₂.mark hm)⟩
  · obtain ⟨_, _, ⟨t, ht, rfl⟩, ⟨_, _, ⟨t₂, ht₂, rfl⟩, ⟨us, _, ⟨e, _, ⟨he, rfl⟩, hus⟩,
      ⟨_, _, ⟨t₄, ht₄, rfl⟩, h, rfl⟩, rfl⟩, rfl⟩, rfl⟩ := h
    obtain ⟨a, b, n, ls, ms, ha, hb, hn, hm⟩ := Holds.actorPair h
    have hd := e.depth_le_length
    refine ⟨.ifThenElse e a b t.pos, _, (Actor.Spelling.ifThenElse (n := e.leaves.length + n) he
      (by omega) (ha.mono (by omega)) (hb.mono (by omega)) t.pos).mono (by simp; omega), ?_⟩
    exact .cons ht.key (.cons ht₂.mark (List.rel_append hus (.cons ht₄.mark hm)))
  · obtain ⟨_, _, ⟨t, ht, rfl⟩, ⟨_, _, ⟨t₂, ht₂, rfl⟩, ⟨_, _, ⟨watched, _, rfl, hw⟩,
      ⟨_, _, ⟨t₄, ht₄, rfl⟩, ⟨us, _, ⟨a, ls, ha, hus⟩, ⟨_, _, ⟨t₆, ht₆, rfl⟩, rfl, rfl⟩, rfl⟩,
      rfl⟩, rfl⟩, rfl⟩, rfl⟩ := h
    refine ⟨.iterate watched a t.pos, _, (Actor.Spelling.iterate watched ha t.pos).mono
      (by simp; omega), .cons ht.key (.cons ht₂.mark ?_)⟩
    exact List.rel_append hw (.cons ht₄.mark (List.rel_append hus (.cons ht₆.mark .nil)))
  · obtain ⟨_, _, ⟨t, ht, rfl⟩, ⟨_, _, ⟨t₂, ht₂, rfl⟩, h, rfl⟩, rfl⟩ := h
    obtain ⟨a, b, n, ls, ms, ha, hb, hn, hm⟩ := Holds.actorPair h
    exact ⟨.parallel a b t.pos, _, (Actor.Spelling.parallel ha hb t.pos).mono (by simp; omega),
      .cons ht.key (.cons ht₂.mark hm)⟩
  · exact Actor.Flat.reads (a := .named ⟨t.text, t.pos⟩) trivial (.cons ht.word .nil)
  · obtain ⟨_, _, ⟨t, ht, rfl⟩, ⟨us, _, ⟨a, ls, ha, hus⟩,
      ⟨_, _, ⟨u, hu, rfl⟩, rfl, rfl⟩, rfl⟩, rfl⟩ := h
    exact ⟨.parens a t.pos, _, (Actor.Spelling.parens ha t.pos).mono (by simp),
      .cons ht.key (List.rel_append hus (.cons hu.mark .nil))⟩

/-! ### Statements and programs -/

/-- The row of an actor that is only a name is the row of an expression too. -/
theorem Actor.exists_expr {a : Actor P} (h : a.isName = true) :
    ∃ e : Expr P, e.Normal ∧ e.leaves = a.leaves .plain := by
  induction a with
  | named id => exact ⟨.named id, trivial, rfl⟩
  | parens inner pos ih =>
      obtain ⟨e, he, hleaves⟩ := ih h
      exact ⟨.parens e pos, he, by simp [Expr.leaves, Actor.leaves, hleaves]⟩
  | _ => cases h

theorem means_assignable (hlook : 2 ≤ limits.lookahead)
    (h : (Rule.production .assignable).Holds Stands (Rule.Means limits) ts) :
    Rule.Means limits .assignable ts := by
  intro hn
  have hfar : ∀ {p : Prop}, limits.lookahead ≤ 1 → p := fun hle => absurd hle (by omega)
  have hexpr : ∀ e : Expr P, e.Normal → List.Forall₂ Leaf.Matches e.leaves ts →
      Reads (Assignable.Spelling limits limits.depth) ts := by
    intro e he hm
    have hd : e.depth ≤ limits.depth := by
      have hlen := hm.length_eq
      have hle := e.depth_le_length
      omega
    exact ⟨.expression e, _, ⟨hfar, he, hd, rfl⟩, hm⟩
  rcases h with ⟨e, _, ⟨he, rfl⟩, hm⟩ | ⟨a, _, rfl, hm⟩ | ⟨m, _, ⟨hne, rfl⟩, hm⟩ |
    ⟨a, ls, ha, hm⟩ | ⟨t, ht, rfl⟩
  · exact hexpr e he hm
  · cases a with
    | literal type source pos =>
        exact ⟨.artifact (.literal type source pos), _, ⟨hfar, rfl⟩, hm⟩
    | named id => exact hexpr (.named id) trivial hm
  · exact ⟨.argMap m, _, ⟨hfar, hne, rfl⟩, hm⟩
  · by_cases hname : a.isName = true ∧ ls = a.leaves .plain
    · obtain ⟨hname, rfl⟩ := hname
      obtain ⟨e, he, hleaves⟩ := Actor.exists_expr hname
      exact hexpr e he (hleaves ▸ hm)
    · have hd : ls.length ≤ limits.depth := by
        rw [hm.length_eq]
        exact hn
      exact ⟨.actor a, ls, ⟨hfar, ha.mono hd, fun hn hls => hname ⟨hn, hls⟩⟩, hm⟩
  · exact ⟨.literal ⟨t.text, t.pos⟩, _, ⟨hfar, rfl⟩, .cons ht.word .nil⟩

theorem means_specStmt (h : (Rule.production .specStmt).Holds Stands (Rule.Means limits) ts) :
    Rule.Means limits .specStmt ts := by
  intro hn
  obtain ⟨_, _, ⟨t, ht, rfl⟩, ⟨_, _, ⟨u, hu, rfl⟩, ⟨vs, _, hvalue, rfl, rfl⟩, rfl⟩, rfl⟩ := h
  simp only [List.append_nil, List.length_append] at hn ⊢
  obtain ⟨v, row, hv, hm⟩ := hvalue (by omega)
  exact ⟨.assign ⟨t.text, t.pos⟩ v, _, ⟨row, hv, rfl⟩, .cons ht.word (.cons hu.mark hm)⟩

theorem means_execStmt (h : (Rule.production .execStmt).Holds Stands (Rule.Means limits) ts) :
    Rule.Means limits .execStmt ts := by
  intro hn
  rcases h with h | h
  · obtain ⟨_, _, ⟨t, ht, rfl⟩, ⟨us, _, ⟨a, row, ha, hm⟩,
      ⟨_, _, ⟨u, hu, rfl⟩, rfl, rfl⟩, rfl⟩, rfl⟩ := h
    simp only [List.length_append, ← hm.length_eq] at hn
    exact ⟨.print a t.pos, _, ⟨row, ha.mono (by omega), rfl⟩,
      .cons ht.key (List.rel_append hm (.cons hu.mark .nil))⟩
  · obtain ⟨_, _, ⟨t, ht, rfl⟩, ⟨us, _, ⟨a, row, ha, hm⟩, ⟨_, _, ⟨u, hu, rfl⟩, ⟨vs, _, hinputs,
      ⟨_, _, ⟨v, hv, rfl⟩, rfl, rfl⟩, rfl⟩, rfl⟩, rfl⟩, rfl⟩ := h
    simp only [List.length_append, ← hm.length_eq] at hn
    have hi : ∃ i : Inputs P, i.Filled ∧ List.Forall₂ Leaf.Matches i.leaves vs := by
      rcases hinputs with ⟨w, hw, rfl⟩ | ⟨m, _, ⟨hne, rfl⟩, hvs⟩
      · exact ⟨.named ⟨w.text, w.pos⟩, trivial, .cons hw.word .nil⟩
      · exact ⟨.argMap m, hne, hvs⟩
    obtain ⟨i, hf, hi⟩ := hi
    refine ⟨.execute a i t.pos, _, ⟨row, ha.mono (by omega), hf, rfl⟩, .cons ht.key ?_⟩
    exact List.rel_append hm (.cons hu.mark (List.rel_append hi (.cons hv.mark .nil)))

theorem means_returnStmt
    (h : (Rule.production .returnStmt).Holds Stands (Rule.Means limits) ts) :
    Rule.Means limits .returnStmt ts := by
  intro _
  obtain ⟨_, _, ⟨t, ht, rfl⟩, ⟨_, _, ⟨u, hu, rfl⟩, rfl, rfl⟩, rfl⟩ := h
  exact ⟨.ret ⟨u.text, u.pos⟩ t.pos, _, rfl, .cons ht.key (.cons hu.word .nil)⟩

theorem means_stmtBlock (h : (Rule.production .stmtBlock).Holds Stands (Rule.Means limits) ts) :
    Rule.Means limits .stmtBlock ts := by
  intro hn
  refine Holds.concat (fun us hus hline => ?_) hn h
  obtain ⟨vs, _, hst, ⟨_, _, ⟨t, ht, rfl⟩, rfl, rfl⟩, rfl⟩ := hline
  simp only [List.length_append] at hus
  obtain ⟨st, row, hrow, hm⟩ := hst (by omega)
  exact ⟨st, _, ⟨row, hrow, rfl⟩, List.rel_append hm (.cons ht.mark .nil)⟩

theorem exists_matches_pin {ls : List (Leaf P)} (hls : ls ≠ [])
    (h : List.Forall₂ Leaf.Matches ls ts) : ∃ pos, List.Forall₂ Leaf.Matches (pin pos ls) ts := by
  obtain ⟨l, ls, rfl⟩ := List.exists_cons_of_ne_nil hls
  obtain ⟨t, ts, ht, hts, rfl⟩ := List.forall₂_cons_left_iff.1 h
  exact ⟨t.pos, .cons (matches_pinned.2 ⟨rfl, ht⟩) hts⟩

/-- A block with the token that closes it. -/
theorem Form.Holds.block {closer : TokenKind} (hn : ts.length ≤ limits.depth)
    (h : (row [rule .stmtBlock, token closer]).Holds Stands (Rule.Means limits) ts) :
    Reads (Block.Spelling limits closer) ts := by
  obtain ⟨us, _, hus, ⟨_, _, ⟨t, ht, rfl⟩, rfl, rfl⟩, rfl⟩ := h
  simp only [List.length_append] at hn
  obtain ⟨sts, rows, hrows, hm⟩ := hus (by omega)
  obtain ⟨pos, hpin⟩ := exists_matches_pin (by simp) (List.rel_append hm (.cons ht.mark .nil))
  exact ⟨⟨sts, pos⟩, _, ⟨rows, hrows, rfl⟩, hpin⟩

theorem means_funDecl (h : (Rule.production .funDecl).Holds Stands (Rule.Means limits) ts) :
    Rule.Means limits .funDecl ts := by
  intro hn
  obtain ⟨_, _, ⟨t, ht, rfl⟩, ⟨_, _, ⟨t₂, ht₂, rfl⟩, ⟨_, _, ⟨t₃, ht₃, rfl⟩, ⟨us, _, hparams,
    ⟨_, _, ⟨t₅, ht₅, rfl⟩, ⟨_, vs, ⟨t₆, ht₆, rfl⟩, hbody, rfl⟩, rfl⟩, rfl⟩, rfl⟩, rfl⟩, rfl⟩ := h
  simp only [List.length_append] at hn
  obtain ⟨params, hparams⟩ := Holds.optRow hparams
  obtain ⟨body, row, hrow, hm⟩ := Holds.block (by omega) hbody
  refine ⟨⟨⟨t₂.text, t₂.pos⟩, params, body, t.pos⟩, _, ⟨row, hrow, rfl⟩, .cons ht.key
    (.cons ht₂.word (.cons ht₃.mark ?_))⟩
  exact List.rel_append hparams (.cons ht₅.mark (.cons ht₆.mark hm))

theorem means_program (h : (Rule.production .program).Holds Stands (Rule.Means limits) ts) :
    Rule.Means limits .program ts := by
  intro hn
  obtain ⟨us, vs, hfs, hbody, rfl⟩ := h
  simp only [List.length_append] at hn
  obtain ⟨fs, rows, hrows, hus⟩ := Holds.concat (I := Rule.Means limits)
    (f := rule .funDecl) (n := limits.depth) (fun us hus h => h hus) (by omega) hfs
  obtain ⟨body, row, hrow, hvs⟩ := Holds.block (by omega) hbody
  exact ⟨⟨fs, body⟩, _, ⟨rows, row, hrows, hrow, rfl⟩, List.rel_append hus hvs⟩

/-- The meanings are closed under the productions. -/
theorem means_of_production (hlook : 2 ≤ limits.lookahead) (r : Rule) (ts : List (Token P))
    (h : r.production.Holds Stands (Rule.Means limits) ts) : Rule.Means limits r ts := by
  cases r with
  | program => exact means_program h
  | funDecl => exact means_funDecl h
  | stmtBlock => exact means_stmtBlock h
  | idList => exact means_idList h
  | stmt =>
      rcases h with h | h | h
      · exact h
      · exact h
      · exact h
  | specStmt => exact means_specStmt h
  | execStmt => exact means_execStmt h
  | returnStmt => exact means_returnStmt h
  | argMap => exact means_argMap h
  | mapItemList => exact means_mapItemList h
  | mapItem => exact means_mapItem h
  | assignable => exact means_assignable hlook h
  | actor => exact means_actor h
  | utilityActor => exact means_utilityActor h
  | artifact => exact means_artifact h
  | artifactType | actorType =>
      obtain ⟨t, ht, rfl⟩ := h
      exact ⟨⟨t.text, t.pos⟩, _, rfl, .cons ht.word .nil⟩
  | exp => exact means_exp h
  | verdictList => exact means_verdictList h
  | quotedId => exact means_quotedId h

end Closed

/-! ## Acceptance -/

section Acceptance

variable {tokens : List (Token P)}

/-- A form and the end of input derive the classes of tokens that end with an end-of-input token
if the form derives the classes of the others. -/
theorem Form.Derives.eof {f : Form} {ls : List (Leaf P)}
    (hf : f.Derives (ls.map Leaf.kind))
    (hm : List.Forall₂ Leaf.Matches (ls ++ [.mark .eof]) tokens) :
    (row [f, .token .eof]).Derives (tokens.map Token.kind) := by
  rw [← Leaf.map_kind_of_matches hm, List.map_append]
  exact .cons hf (.last (.token _))

/-- The parsers accept exactly what the grammar derives. -/
theorem ofTokens_eq_ok_iff_derives [Inhabited P] (limits : Limits) (ht : Terminated tokens)
    (hoperators : ∀ t ∈ tokens, t.kind = .binOp → BinOp.ofText? t.text ≠ none)
    (hverdicts : ∀ t ∈ tokens, t.kind = .verdict → Verdict.ofText? t.text ≠ none)
    (hlook : 2 ≤ limits.lookahead) (hdepth : tokens.length ≤ limits.depth) :
    ((∃ p, Program.ofTokens limits tokens = .ok p) ↔
        (rule .program).Derives (tokens.map Token.kind)) ∧
      ((∃ a, Actor.ofTokens limits tokens = .ok a) ↔
        (row [rule .actor, token .eof]).Derives (tokens.map Token.kind)) ∧
      ((∃ e, Expr.ofTokens limits tokens = .ok e) ↔
        (row [rule .exp, token .eof]).Derives (tokens.map Token.kind)) := by
  have hstands : ∀ t ∈ tokens, t.Stands t.kind := fun t ht =>
    ⟨rfl, hoperators t ht, hverdicts t ht⟩
  have hholds : ∀ {f : Form}, f.Derives (tokens.map Token.kind) →
      f.Holds Stands (Rule.Means limits) tokens := fun h =>
    h.holds (means_of_production hlook) rfl hstands
  refine ⟨⟨?_, ?_⟩, ⟨?_, ?_⟩, ⟨?_, ?_⟩⟩
  · rintro ⟨p, hp⟩
    obtain ⟨ls, hls, hm⟩ := (Program.ofTokens_eq_ok ht).1 hp
    rw [← Leaf.map_kind_of_matches hm]
    exact hls.derives
  · intro h
    obtain ⟨p, ls, hls, hm⟩ : Reads (Program.Spelling limits) tokens := hholds h hdepth
    exact ⟨p, (Program.ofTokens_eq_ok ht).2 ⟨ls, hls, hm⟩⟩
  · rintro ⟨a, ha⟩
    obtain ⟨ls, hls, hm⟩ := (Actor.ofTokens_eq_ok ht).1 ha
    exact hls.derives.eof hm
  · intro h
    obtain ⟨us, _, ⟨a, ls, ha, hus⟩, ⟨_, _, ⟨t, he, rfl⟩, rfl, rfl⟩, rfl⟩ := hholds h
    simp only [List.length_append] at hdepth
    have hlen := hus.length_eq
    refine ⟨a, (Actor.ofTokens_eq_ok ht).2 ⟨ls, ha.mono (by omega), ?_⟩⟩
    exact List.rel_append hus (.cons he.mark .nil)
  · rintro ⟨e, he⟩
    obtain ⟨hn, -, hm⟩ := (Expr.ofTokens_eq_ok ht).1 he
    exact (Expr.derives_leaves hn).eof hm
  · intro h
    obtain ⟨us, _, ⟨e, _, ⟨hn, rfl⟩, hus⟩, ⟨_, _, ⟨t, he, rfl⟩, rfl, rfl⟩, rfl⟩ := hholds h
    simp only [List.length_append] at hdepth
    have hlen := hus.length_eq
    have hd := e.depth_le_length
    refine ⟨e, (Expr.ofTokens_eq_ok ht).2 ⟨hn, by omega, ?_⟩⟩
    exact List.rel_append hus (.cons he.mark .nil)

def Token.negationSample : List (Token Unit) :=
  [⟨.not, "NOT", ()⟩, ⟨.ident, "a", ()⟩, ⟨.binOp, "AND", ()⟩, ⟨.not, "NOT", ()⟩, ⟨.ident, "b", ()⟩,
    ⟨.binOp, "==", ()⟩, ⟨.elementOf, "ELEMENTOF", ()⟩, ⟨.lparen, "(", ()⟩, ⟨.ident, "v", ()⟩,
    ⟨.comma, ",", ()⟩, ⟨.lbrace, "\x7b", ()⟩, ⟨.verdict, "TRUE", ()⟩, ⟨.rbrace, "\x7d", ()⟩,
    ⟨.rparen, ")", ()⟩, ⟨.eof, "", ()⟩]

theorem derives_negationSample :
    Terminated Token.negationSample ∧
      (∀ t ∈ Token.negationSample, t.kind = .binOp → BinOp.ofText? t.text ≠ none) ∧
      (∀ t ∈ Token.negationSample, t.kind = .verdict → Verdict.ofText? t.text ≠ none) ∧
      Token.negationSample.length ≤ 15 ∧
      (row [rule .exp, token .eof]).Derives (Token.negationSample.map Token.kind) ∧
      ¬ (rule .program).Derives (Token.negationSample.map Token.kind) ∧
      ¬ (row [rule .actor, token .eof]).Derives (Token.negationSample.map Token.kind) := by
  have hterm : Terminated Token.negationSample :=
    ⟨Token.negationSample.dropLast, ⟨.eof, "", ()⟩, by decide, rfl, by decide⟩
  have hops : ∀ t ∈ Token.negationSample, t.kind = .binOp → BinOp.ofText? t.text ≠ none := by
    decide +kernel
  have hverdicts : ∀ t ∈ Token.negationSample, t.kind = .verdict →
      Verdict.ofText? t.text ≠ none := by
    decide +kernel
  obtain ⟨hprogram, hactor, hexpr⟩ := ofTokens_eq_ok_iff_derives ⟨2, 15⟩ hterm hops
    hverdicts (Nat.le_refl 2) (Nat.le_refl 15)
  refine ⟨hterm, hops, hverdicts, Nat.le_refl 15, hexpr.1 ?_, fun h => ?_, fun h => ?_⟩
  · -- Both negations take the operators behind them along.
    exact ⟨.not (.binary (.named ⟨"a", ()⟩) .and () (.not (.binary (.named ⟨"b", ()⟩) .eq ()
      (.elementOf ⟨"v", ()⟩ [.true] ())) ())) (), by decide +kernel⟩
  · obtain ⟨p, hp⟩ := hprogram.2 h
    have hnone : (Program.ofTokens ⟨2, 15⟩ Token.negationSample).toOption = none := by
      decide +kernel
    simp [hp, Except.toOption] at hnone
  · obtain ⟨a, ha⟩ := hactor.2 h
    have hnone : (Actor.ofTokens ⟨2, 15⟩ Token.negationSample).toOption = none := by
      decide +kernel
    simp [ha, Except.toOption] at hnone

end Acceptance

end ActorLang
