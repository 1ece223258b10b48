import ActorLang.Proofs.Delimiters
import ActorLang.Proofs.Parser.Actor

/-!
# The rows of trees are balanced

Every opening delimiter in the row of an expression or an actor is closed in that row. The closer of
an opening delimiter is the only one that stands behind a balanced part.
-/

namespace ActorLang

variable {P α : Type}

namespace TokenKind

theorem Balanced.append {js ks : List TokenKind} (hj : Balanced js) (hk : Balanced ks) :
    Balanced (js ++ ks) := by
  induction hj with
  | nil => exact hk
  | plain ho hc _ ih => exact .plain ho hc ih
  | @pair k c is js ho his _ _ ih =>
      rw [List.cons_append, List.append_assoc, List.cons_append]
      exact .pair ho his ih

/-- A closer behind a balanced part is the only one. -/
theorem Balanced.closer_unique {js ks js' ks' : List TokenKind} {c c' : TokenKind}
    (hc : c.closes = true) (hc' : c'.closes = true) (hj : Balanced js) (hj' : Balanced js')
    (h : js ++ c :: ks = js' ++ c' :: ks') : js = js' := by
  -- A balanced part that goes on behind a closer would have to close before it opens.
  have hshort : ∀ {is : List TokenKind} {d : TokenKind} {ls : List TokenKind},
      d.closes = true → Balanced is → ¬ Balanced (is ++ d :: ls) := by
    intro is d ls hd his hall
    have hrun := nestAll?_balanced hall []
    rw [nestAll?_append, nestAll?_balanced his] at hrun
    exact not_matches_of_nestAll? hd hrun ⟨[], ls, .nil, rfl⟩
  rcases List.append_eq_append_iff.1 h with ⟨is, rfl, his⟩ | ⟨is, rfl, his⟩
  · cases is with
    | nil => simp
    | cons i is =>
        obtain ⟨rfl, -⟩ := List.cons.inj his
        exact absurd hj' (hshort hc hj)
  · cases is with
    | nil => simp
    | cons i is =>
        obtain ⟨rfl, -⟩ := List.cons.inj his
        exact absurd hj (hshort hc' hj')

end TokenKind

open Leaf TokenKind

/-- Every delimiter of a row has its partner there. -/
def Leaf.Even (ls : List (Leaf P)) : Prop :=
  Balanced (ls.map Leaf.kind)

namespace Leaf.Even

theorem nil : Even ([] : List (Leaf P)) :=
  Balanced.nil

theorem append {ls ms : List (Leaf P)} (hl : Even ls) (hm : Even ms) : Even (ls ++ ms) := by
  unfold Even
  rw [List.map_append]
  exact Balanced.append hl hm

theorem cons {l : Leaf P} {ls : List (Leaf P)} (h : Even ls)
    (hl : l.kind.closer = none ∧ l.kind.closes = false) : Even (l :: ls) :=
  Balanced.plain hl.1 hl.2 h

/-- An opener, a balanced row and the closer of the opener. -/
theorem group {l r : Leaf P} {ls : List (Leaf P)} (hls : Even ls)
    (h : l.kind.closer = some r.kind) : Even (l :: (ls ++ [r])) := by
  unfold Even
  rw [List.map_cons, List.map_append]
  exact Balanced.pair h hls .nil

theorem commaRow {f : α → List (Leaf P)} (h : ∀ a, Even (f a)) (as : List α) :
    Even (commaRow f as) := by
  have htail : ∀ bs : List α, Even (bs.flatMap fun b => mark .comma :: f b) := by
    intro bs
    induction bs with
    | nil => exact .nil
    | cons b bs ih => exact ((h b).cons ⟨rfl, rfl⟩).append ih
  cases as with
  | nil => exact .nil
  | cons a as => exact (h a).append (htail as)

/-- Two arguments in parentheses behind a keyword. -/
theorem arguments {l : Leaf P} {ls ms : List (Leaf P)} (hls : Even ls) (hms : Even ms)
    (hl : l.kind.closer = none ∧ l.kind.closes = false) :
    Even (l :: mark .lparen :: (ls ++ mark .comma :: (ms ++ [mark .rparen]))) := by
  have hargs := hls.append (hms.cons (l := mark .comma) ⟨rfl, rfl⟩)
  have hrow := (hargs.group (l := mark .lparen) (r := mark .rparen) rfl).cons hl
  simpa using hrow

end Leaf.Even

theorem Ident.even_quotedLeaves (id : Ident P) : Even id.quotedLeaves :=
  balanced_of_nestAll? rfl

theorem Ident.even_row (ids : List (Ident P)) : Even (Ident.row ids) :=
  .commaRow (fun _ => balanced_of_nestAll? rfl) ids

theorem Reference.even_factoryLeaves {k : TokenKind} (hk : k.closer = some .rparen)
    (type : TypeIdent P) (source : Reference P) (pos : P) :
    Even (source.factoryLeaves k type pos) := by
  have hargs : Even [type.leaf, mark .comma, source.leaf] := by
    cases source <;> exact balanced_of_nestAll? rfl
  exact hargs.group hk

theorem MapItem.even_leaves (i : MapItem P) : Even i.leaves := by
  obtain ⟨key, value⟩ := i
  refine key.even_quotedLeaves.append ?_
  match value with
  | none => exact .nil
  | some (.artifact (.literal type source pos)) =>
      exact (source.even_factoryLeaves rfl type pos).cons ⟨rfl, rfl⟩
  | some (.artifact (.named id)) | some (.artifactType type) | some (.quoted id) =>
      exact balanced_of_nestAll? rfl

theorem ArgMap.even_leaves (m : ArgMap P) : Even m.leaves :=
  (Leaf.Even.commaRow MapItem.even_leaves m.items).group rfl

theorem Expr.even_leaves (e : Expr P) : Even e.leaves := by
  induction e with
  | not operand pos ih => exact ih.cons ⟨rfl, rfl⟩
  | instanceOf subject type pos => exact balanced_of_nestAll? rfl
  | elementOf subject verdicts pos =>
      have hverdicts : Even (commaRow (fun v : Verdict => [(v.leaf : Leaf P)]) verdicts) :=
        .commaRow (fun _ => balanced_of_nestAll? rfl) verdicts
      have hsubject : Even [subject.leaf] := balanced_of_nestAll? rfl
      have hset := hverdicts.group (l := mark .lbrace) (r := mark .rbrace) rfl
      simpa [Expr.leaves] using hsubject.arguments hset (l := key .elementOf pos) ⟨rfl, rfl⟩
  | named id => exact balanced_of_nestAll? rfl
  | parens inner pos ih => exact ih.group rfl
  | binary left op opPos right ihl ihr => exact ihl.append (ihr.cons ⟨rfl, rfl⟩)

theorem Actor.Flat.even_leaves {a : Actor P} (h : a.Flat) : Even (a.leaves .plain) := by
  cases a with
  | atomic type source pos => exact source.even_factoryLeaves rfl type pos
  | call name args => exact ((Ident.even_row args).group rfl).cons ⟨rfl, rfl⟩
  | joiner type merge output pos =>
      have htype : Even [type.leaf] := balanced_of_nestAll? rfl
      have hrest := merge.even_leaves.append
        (output.even_quotedLeaves.cons (l := mark .comma) ⟨rfl, rfl⟩)
      simpa [Actor.leaves] using htype.arguments hrest (l := key .joiner pos) ⟨rfl, rfl⟩
  | copy map pos | rename map pos | identityMap map pos =>
      exact (map.even_leaves.group rfl).cons ⟨rfl, rfl⟩
  | testSpecToSpec pos | specToTestSpec pos | named id => exact balanced_of_nestAll? rfl
  | _ => exact h.elim

theorem Actor.Spelling.even {n : Nat} {a : Actor P} {ls : List (Leaf P)} (h : a.Spelling n ls) :
    Even ls := by
  induction h with
  | flat h => exact h.even_leaves
  | wrapped _ ih => exact ih.group rfl
  | identity _ pos ih => exact (ih.group rfl).cons ⟨rfl, rfl⟩
  | sequence _ _ pos iha ihb | parallel _ _ pos iha ihb => exact iha.arguments ihb ⟨rfl, rfl⟩
  | @ifThenElse n e a b ls ms _ _ _ _ pos iha ihb =>
      have hrow := e.even_leaves.arguments (iha.append (ihb.cons (l := mark .comma) ⟨rfl, rfl⟩))
        (l := key .ite pos) ⟨rfl, rfl⟩
      simpa using hrow
  | iterate watched _ pos ih => exact watched.even_quotedLeaves.arguments ih ⟨rfl, rfl⟩
  | parens _ pos ih => exact ih.group rfl

end ActorLang
