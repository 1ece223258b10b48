import ActorLang.Proofs.Printer.Places
import ActorLang.Proofs.Run.Rules

/-!
# Parsing undoes flattening

An expression written from left to right is a row of tokens in which the grouping of its operators
is not to be seen. Parsing restores it for the normal expressions, and gives no other ones: a row
of operators groups to the left, and a negation takes all that follows it in its row along.
-/

namespace ActorLang

variable {P Q : Type}

/-- What a tree can know of a token: its class, and its text if the class leaves it open. -/
def Token.content (t : Token P) : TokenKind × Option String :=
  (t.kind, if t.kind.worded then some t.text else none)

def Leaf.content (l : Leaf P) : TokenKind × Option String :=
  (l.kind, l.text)

/-- Tokens that match a row with the content of other tokens have that content as well. -/
theorem Leaf.content_of_matches {ls : List (Leaf P)} {ts : List (Token P)} {us : List (Token Q)}
    (h : List.Forall₂ Matches ls ts) (hls : ls.map content = us.map Token.content) :
    us.map Token.content = ts.map Token.content := by
  induction h generalizing us with
  | nil => simpa using hls.symm
  | @cons l t ls ts ht _ ih =>
      obtain ⟨u, us, rfl⟩ : ∃ u us', us = u :: us' := by
        cases us with
        | nil => simp at hls
        | cons u us => exact ⟨u, us, rfl⟩
      obtain ⟨hl, hls⟩ := List.cons_eq_cons.1 hls
      obtain ⟨hkind, htext⟩ := Prod.mk.inj hl
      have hu : u.kind = t.kind := by rw [ht.kind, hkind]
      have hcontent : u.content = t.content := by
        unfold Token.content
        cases hw : t.kind.worded with
        | false => simp [hu, hw]
        | true =>
            rw [hu, hw] at htext
            simp [hu, hw, ht.text _ htext]
      rw [List.map_cons, List.map_cons, hcontent, ih hls]

/-- Without places, tokens with the content of a row match it. -/
theorem Leaf.matches_of_content {ls : List (Leaf Unit)} {ts : List (Token Unit)}
    (h : ls.map content = ts.map Token.content) : List.Forall₂ Matches ls ts := by
  induction ls generalizing ts with
  | nil =>
      obtain rfl : ts = [] := by simpa using h.symm
      exact .nil
  | cons l ls ih =>
      cases ts with
      | nil => simp at h
      | cons t ts =>
          obtain ⟨hl, hls⟩ := List.cons_eq_cons.1 h
          obtain ⟨hkind, htext⟩ := Prod.mk.inj hl
          refine .cons ⟨hkind.symm, fun x hx => ?_, fun _ _ => rfl⟩ (ih hls)
          rw [htext] at hx
          split at hx
          · exact Option.some.inj hx
          · cases hx

namespace Expr

/-- The tokens of an expression from left to right. -/
def flatten : Expr P → List (Token Unit)
  | not operand _ => ⟨.not, "NOT", ()⟩ :: operand.flatten
  | instanceOf subject type _ =>
    [⟨.instanceOf, "INSTANCEOF", ()⟩, ⟨.lparen, "(", ()⟩, ⟨.ident, subject.name, ()⟩,
      ⟨.comma, ",", ()⟩, ⟨.typeName, type.name, ()⟩, ⟨.rparen, ")", ()⟩]
  | elementOf subject verdicts _ =>
    [⟨.elementOf, "ELEMENTOF", ()⟩, ⟨.lparen, "(", ()⟩, ⟨.ident, subject.name, ()⟩,
      ⟨.comma, ",", ()⟩, ⟨.lbrace, "\x7b", ()⟩] ++
    (verdicts.map fun v => ⟨.verdict, v.text, ()⟩).intersperse ⟨.comma, ",", ()⟩ ++
    [⟨.rbrace, "\x7d", ()⟩, ⟨.rparen, ")", ()⟩]
  | named id => [⟨.ident, id.name, ()⟩]
  | parens inner _ => ⟨.lparen, "(", ()⟩ :: (inner.flatten ++ [⟨.rparen, ")", ()⟩])
  | binary left op _ right => left.flatten ++ ⟨.binOp, op.text, ()⟩ :: right.flatten

def flattenOps (ops : List (BinOp × P × Expr P)) : List (Token Unit) :=
  ops.flatMap fun o => ⟨.binOp, o.1.text, ()⟩ :: o.2.2.flatten

def spineEnd : Expr P → Expr P
  | binary _ _ _ right => right.spineEnd
  | e => e

/-- A normal expression that does not depend on the operators around it. -/
structure Operand (e : Expr P) : Prop where
  normal : e.Normal
  isBinary : e.isBinary = false
  isNot : e.isNot = false

theorem spineEnd_of_not_binary {e : Expr P} (h : e.isBinary = false) : e.spineEnd = e := by
  cases e with
  | binary => simp [isBinary] at h
  | _ => rfl

theorem Normal.endsInNot_eq {e : Expr P} (h : e.Normal) : e.endsInNot = e.spineEnd.isNot := by
  cases e with
  | binary left op opPos right =>
      have hright : right.isBinary = false := h.2.2.2
      rw [spineEnd, spineEnd_of_not_binary hright]
      rfl
  | _ => rfl

/-- The condition on operators: the left operand has no negation at its end, and the right one is
not an operator. -/
theorem normal_binary {left right : Expr P} {op : BinOp} {opPos : P} :
    (binary left op opPos right).Normal ↔
      left.Normal ∧ right.Normal ∧ left.spineEnd.isNot = false ∧ right.isBinary = false := by
  constructor
  · rintro ⟨hl, hr, hend, hb⟩
    exact ⟨hl, hr, hl.endsInNot_eq ▸ hend, hb⟩
  · rintro ⟨hl, hr, hend, hb⟩
    exact ⟨hl, hr, hl.endsInNot_eq.trans hend, hb⟩

/-! ## Places -/

theorem normal_map (f : P → Q) (e : Expr P) : (e.map f).Normal ↔ e.Normal := by
  induction e with
  | not operand pos ih => exact ih
  | parens inner pos ih => exact ih
  | instanceOf | elementOf | named => rfl
  | binary left op opPos right ihl ihr =>
      simp only [Expr.map, Normal, ihl, ihr, endsInNot_map, isBinary_map]

theorem depth_map (f : P → Q) (e : Expr P) : (e.map f).depth = e.depth := by
  induction e <;> simp_all [Expr.map, depth]

theorem flatten_map (f : P → Q) (e : Expr P) : (e.map f).flatten = e.flatten := by
  induction e <;> simp_all [Expr.map, flatten, Ident.map, TypeIdent.map]

/-! ## Rows -/

theorem content_verdicts (vs : List Verdict) :
    (Leaf.commaRow (fun v => [(v.leaf : Leaf P)]) vs).map Leaf.content =
      ((vs.map fun v => (⟨.verdict, v.text, ()⟩ : Token Unit)).intersperse
        ⟨.comma, ",", ()⟩).map Token.content := by
  cases vs with
  | nil => rfl
  | cons v vs =>
      induction vs generalizing v with
      | nil => rfl
      | cons w vs ih => exact congrArg (_ :: _ :: ·) (ih w)

theorem content_leaves (e : Expr P) : e.leaves.map Leaf.content = e.flatten.map Token.content := by
  induction e with
  | elementOf subject verdicts pos =>
      have hrow := content_verdicts (P := P) verdicts
      simp only [leaves, flatten, List.map_cons, List.map_append, hrow]
      rfl
  | instanceOf | named => rfl
  | not operand pos ih => exact congrArg (_ :: ·) ih
  | parens inner pos ih =>
      simp only [leaves, flatten, List.map_cons, List.map_append, ih]
      rfl
  | binary left op opPos right ihl ihr =>
      simp only [leaves, flatten, List.map_cons, List.map_append, ihl, ihr]
      rfl

theorem kind_leaves_ne_eof (e : Expr P) : ∀ l ∈ e.leaves, l.kind ≠ .eof := by
  induction e with
  | elementOf subject verdicts pos =>
      simp [leaves, or_imp, forall_and, Leaf.forall_mem_commaRow, Verdict.leaf, Ident.leaf]
  | _ => simp_all [leaves, or_imp, Ident.leaf, TypeIdent.leaf]

/-! ## Chains -/

/-- Operators grouped to the left are flattened in the order in which they were read. -/
theorem flatten_applyAll (head : Expr P) (ops : List (BinOp × P × Expr P)) :
    (Parser.applyAll head ops).flatten = head.flatten ++ flattenOps ops := by
  induction ops generalizing head with
  | nil => simp [Parser.applyAll, flattenOps]
  | cons o ops ih =>
      have hstep : (Parser.applyAll head (o :: ops)).flatten =
          (binary head o.1 o.2.1 o.2.2).flatten ++ flattenOps ops := ih _
      rw [hstep]
      simp [flatten, flattenOps]

theorem Operand.spineEnd_isNot {e : Expr P} (h : e.Operand) : e.spineEnd.isNot = false := by
  rw [spineEnd_of_not_binary h.isBinary]
  exact h.isNot

/-- Operators behind an expression keep what makes it a left operand. -/
theorem normal_applyAll {head : Expr P} {ops : List (BinOp × P × Expr P)} (hhead : head.Normal)
    (hend : head.spineEnd.isNot = false) (hops : ∀ o ∈ ops, o.2.2.Operand) :
    (Parser.applyAll head ops).Normal ∧ (Parser.applyAll head ops).spineEnd.isNot = false := by
  induction ops generalizing head with
  | nil => exact ⟨hhead, hend⟩
  | cons o ops ih =>
      obtain ⟨ho, hops⟩ := List.forall_mem_cons.1 hops
      apply ih _ _ hops
      · exact normal_binary.2 ⟨hhead, ho.normal, hend, ho.isBinary⟩
      · exact ho.spineEnd_isNot

end Expr

/-! ## Parsing -/

theorem Expr.flatten_of_ofTokens [Inhabited P] {limits : Limits} {tokens : List (Token P)}
    {e : Expr P} (ht : Terminated tokens) (h : Expr.ofTokens limits tokens = .ok e) :
    e.Normal ∧ e.flatten.map Token.content = tokens.dropLast.map Token.content := by
  obtain ⟨hnormal, -, hmatch⟩ := (Expr.ofTokens_eq_ok ht).1 h
  obtain ⟨body, last, hbody, hlast, rfl⟩ := Leaf.matches_append.1 hmatch
  obtain ⟨t, -, rfl⟩ := Leaf.matches_singleton.1 hlast
  refine ⟨hnormal, ?_⟩
  rw [List.dropLast_concat]
  exact Leaf.content_of_matches hbody e.content_leaves

theorem Expr.terminated_flatten (e : Expr P) : Terminated (e.flatten ++ [⟨.eof, "", ()⟩]) := by
  refine ⟨e.flatten, _, rfl, rfl, fun t ht => ?_⟩
  have hcontent := List.mem_map_of_mem (f := Token.content) ht
  rw [← e.content_leaves] at hcontent
  obtain ⟨l, hl, hlt⟩ := List.mem_map.1 hcontent
  have hkind : l.kind = t.kind := congrArg Prod.fst hlt
  rw [← hkind]
  exact e.kind_leaves_ne_eof l hl

/-- The parser gives back a tree that is in normal form and not too deep, and no other. -/
theorem Expr.ofTokens_flatten (limits : Limits) (e : Expr P) :
    Expr.ofTokens limits (e.flatten ++ [⟨.eof, "", ()⟩]) = .ok e.shape ↔
      e.Normal ∧ e.depth ≤ limits.depth := by
  have hnormal : e.shape.Normal ↔ e.Normal := normal_map _ e
  have hdepth : e.shape.depth = e.depth := depth_map _ e
  have hflatten : e.shape.flatten = e.flatten := flatten_map _ e
  have hmatch : List.Forall₂ Leaf.Matches (e.shape.leaves ++ [.mark .eof])
      (e.flatten ++ [⟨.eof, "", ()⟩]) := by
    rw [← hflatten]
    apply List.rel_append (Leaf.matches_of_content e.shape.content_leaves)
    exact .cons (Leaf.matches_mark.2 rfl) .nil
  rw [Expr.ofTokens_eq_ok e.terminated_flatten, hnormal, hdepth]
  exact ⟨fun h => ⟨h.1, h.2.1⟩, fun h => ⟨h.1, h.2, hmatch⟩⟩

/-- Parsing and flattening are inverse to each other on normal expressions, apart from places. What
is read is always normal, so that chains of operators group to the left and a negation takes the
rest of its chain along. -/
theorem Expr.ofTokens_inverse_flatten [Inhabited P] (limits : Limits) :
    (∀ (tokens : List (Token P)) e, Terminated tokens → Expr.ofTokens limits tokens = .ok e →
      e.Normal ∧ e.flatten.map Token.content = tokens.dropLast.map Token.content) ∧
    (∀ e : Expr P, e.Normal →
      (Expr.ofTokens limits (e.flatten ++ [⟨.eof, "", ()⟩]) = .ok e.shape ↔
        e.depth ≤ limits.depth)) ∧
    (∀ (head : Expr P) ops, head.Operand → (∀ o ∈ ops, o.2.2.Operand) →
      (Parser.applyAll head ops).depth ≤ limits.depth →
      Expr.ofTokens limits (head.flatten ++ flattenOps ops ++ [⟨.eof, "", ()⟩]) =
        .ok (Parser.applyAll head ops).shape) ∧
    (∀ (head : Expr P) ops op opPos rest pos, head.Operand → (∀ o ∈ ops, o.2.2.Operand) →
      rest.Normal →
      (binary (Parser.applyAll head ops) op opPos (not rest pos)).depth ≤ limits.depth →
      Expr.ofTokens limits (head.flatten ++ flattenOps ops ++ [⟨.binOp, op.text, ()⟩] ++
          ⟨.not, "NOT", ()⟩ :: rest.flatten ++ [⟨.eof, "", ()⟩]) =
        .ok (binary (Parser.applyAll head ops) op opPos (not rest pos)).shape) ∧
    (∀ e e' : Expr P, e.Normal → e'.Normal → e.flatten = e'.flatten → e.shape = e'.shape) := by
  refine ⟨fun tokens e ht h => flatten_of_ofTokens ht h, ?_, ?_, ?_, ?_⟩
  · intro e he
    rw [ofTokens_flatten]
    exact and_iff_right he
  · intro head ops hhead hops hdepth
    rw [← flatten_applyAll]
    apply (ofTokens_flatten limits _).2
    exact ⟨(normal_applyAll hhead.normal hhead.spineEnd_isNot hops).1, hdepth⟩
  · intro head ops op opPos rest pos hhead hops hrest hdepth
    obtain ⟨hnormal, hend⟩ := normal_applyAll hhead.normal hhead.spineEnd_isNot hops
    have hflatten : (binary (Parser.applyAll head ops) op opPos (not rest pos)).flatten =
        head.flatten ++ flattenOps ops ++ [⟨.binOp, op.text, ()⟩] ++
          ⟨.not, "NOT", ()⟩ :: rest.flatten := by
      simp [flatten, flatten_applyAll]
    rw [← hflatten]
    apply (ofTokens_flatten limits _).2
    exact ⟨normal_binary.2 ⟨hnormal, hrest, hend, rfl⟩, hdepth⟩
  · intro e e' he he' hflatten
    have hroom := Nat.le_max_left e.depth e'.depth
    have hroom' := Nat.le_max_right e.depth e'.depth
    have h := (ofTokens_flatten ⟨2, max e.depth e'.depth⟩ e).2 ⟨he, hroom⟩
    have h' := (ofTokens_flatten ⟨2, max e.depth e'.depth⟩ e').2 ⟨he', hroom'⟩
    rw [hflatten, h'] at h
    exact (Except.ok.inj h).symm

def Expr.negatedSample : Expr Nat :=
  .binary (.binary (.named ⟨"a", 0⟩) .and 1 (.named ⟨"b", 2⟩)) .or 3
    (.not (.binary (.named ⟨"c", 5⟩) .eq 6 (.named ⟨"d", 7⟩)) 4)

theorem Expr.ofTokens_negatedSample :
    negatedSample.Normal ∧ negatedSample.depth ≤ 4 ∧
      negatedSample.flatten.map Token.text = ["a", "AND", "b", "OR", "NOT", "c", "==", "d"] ∧
      Expr.ofTokens ⟨2, 4⟩ (negatedSample.flatten ++ [⟨.eof, "", ()⟩]) =
        .ok negatedSample.shape := by
  have hnormal : negatedSample.Normal :=
    ⟨⟨trivial, trivial, rfl, rfl⟩, ⟨trivial, trivial, rfl, rfl⟩, rfl, rfl⟩
  have hdepth : negatedSample.depth ≤ 4 := by decide
  obtain ⟨-, hinverse, -⟩ := Expr.ofTokens_inverse_flatten (P := Nat) ⟨2, 4⟩
  exact ⟨hnormal, hdepth, rfl, (hinverse _ hnormal).2 hdepth⟩

end ActorLang
