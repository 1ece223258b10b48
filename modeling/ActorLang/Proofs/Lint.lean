import ActorLang.Proofs.Parser.Composition
import ActorLang.Proofs.Printer.WellFormed
import ActorLang.Proofs.Walk
import ActorLang.Tree.Lint
import Mathlib.Data.List.Nodup
import Mathlib.Data.Prod.Lex
import Mathlib.Data.String.Basic

/-!
# Findings are exact

The terms of a program are its expressions and actors, each before the terms inside it. A finding is
due for every term that negates a negation, or that puts a name or a parenthesized term into
parentheses. The findings of a program are the due ones in the order of their places. In a program
that was read from a source this is the order of the terms themselves, because a term with a finding
has its token for itself.
-/

namespace ActorLang

variable {P Q : Type}

inductive Term (P : Type)
  | expr (e : Expr P)
  | actor (a : Actor P)

def Expr.terms : Expr P → List (Term P)
  | e@(not operand _) => .expr e :: operand.terms
  | e@(parens inner _) => .expr e :: inner.terms
  | e@(binary left _ _ right) => .expr e :: (left.terms ++ right.terms)
  | e@(instanceOf ..) | e@(elementOf ..) | e@(named _) => [.expr e]

def Actor.terms : Actor P → List (Term P)
  | a@(identity inner _) | a@(iterate _ inner _) | a@(parens inner _) => .actor a :: inner.terms
  | a@(sequence first second _) | a@(parallel first second _) =>
    .actor a :: (first.terms ++ second.terms)
  | a@(ifThenElse condition thenActor elseActor _) =>
    .actor a :: (condition.terms ++ (thenActor.terms ++ elseActor.terms))
  | a@(atomic ..) | a@(call ..) | a@(joiner ..) | a@(copy ..) | a@(rename ..)
  | a@(testSpecToSpec _) | a@(specToTestSpec _) | a@(identityMap ..) | a@(named _) => [.actor a]

def Statement.terms : Statement P → List (Term P)
  | assign _ (.expression e) => e.terms
  | assign _ (.actor a) | print a _ | execute a _ _ => a.terms
  | assign _ (.artifact _) | assign _ (.argMap _) | assign _ (.literal _) | ret .. => []

/-- The expressions and actors of a program, each before those inside it. -/
def Program.terms (p : Program P) : List (Term P) :=
  p.statements.flatMap Statement.terms

def Term.finding? : Term P → Option (Finding P)
  | expr (.not (.not ..) pos) => some ⟨.doubleNegation, "double negation cancels out", pos⟩
  | expr (.parens (.named id) pos) | actor (.parens (.named id) pos) =>
    some ⟨.redundantParens, "redundant parentheses around '" ++ id.name ++ "'", pos⟩
  | expr (.parens (.parens ..) pos) =>
    some ⟨.redundantParens, "redundant parentheses around a parenthesized expression", pos⟩
  | actor (.parens (.parens ..) pos) =>
    some ⟨.redundantParens, "redundant parentheses around a parenthesized actor", pos⟩
  | _ => none

/-- The findings that are due for the terms of a program, in the order of the terms. -/
def Program.due (p : Program P) : List (Finding P) :=
  p.terms.filterMap Term.finding?

/-! ## Terms and nodes -/

def Node.term? : Node P → Option (Term P)
  | expr e => some (.expr e)
  | actor a => some (.actor a)
  | _ => none

def enteredTerms (events : List (Event P)) : List (Term P) :=
  events.filterMap fun event => event.entered?.bind Node.term?

theorem enteredTerms_append (es fs : List (Event P)) :
    enteredTerms (es ++ fs) = enteredTerms es ++ enteredTerms fs :=
  List.filterMap_append

theorem enteredTerms_flatMap {α : Type} (as : List α) (f : α → List (Event P)) :
    enteredTerms (as.flatMap f) = as.flatMap fun a => enteredTerms (f a) :=
  List.filterMap_flatMap

theorem enteredTerms_around (n : Node P) (events : List (Event P)) :
    enteredTerms (n.around events) = n.term?.toList ++ enteredTerms events := by
  cases hn : n.term? <;> simp [enteredTerms, Node.around, Event.entered?, hn]

theorem Reference.enteredTerms_events (r : Reference P) : enteredTerms r.events = [] := by
  cases r <;> rfl

theorem Artifact.enteredTerms_events (a : Artifact P) : enteredTerms a.events = [] := by
  cases a with
  | literal type source pos =>
      rw [Artifact.events, enteredTerms_around, source.enteredTerms_events]
      rfl
  | named id => rfl

theorem ArgMap.enteredTerms_events (m : ArgMap P) : enteredTerms m.events = [] := by
  have hitem : ∀ i : MapItem P, enteredTerms i.events = [] := by
    rintro ⟨key, value⟩
    match value with
    | some (.artifact a) =>
        rw [MapItem.events, enteredTerms_around, a.enteredTerms_events]
        rfl
    | some (.artifactType _) | some (.quoted _) | none => rfl
  rw [ArgMap.events, enteredTerms_around, enteredTerms_flatMap]
  simp [Node.term?, hitem]

theorem Expr.enteredTerms_events (e : Expr P) : enteredTerms e.events = e.terms := by
  induction e with
  | not operand pos ih => rw [Expr.events, enteredTerms_around, ih]; rfl
  | parens inner pos ih => rw [Expr.events, enteredTerms_around, ih]; rfl
  | binary left op opPos right ihl ihr =>
      rw [Expr.events, enteredTerms_around, enteredTerms_append, ihl, ihr]
      rfl
  | instanceOf | elementOf | named => rfl

/-- A utility is no term of its own: it is the actor that was entered before it. -/
theorem Actor.enteredTerms_utility (a : Actor P) (events : List (Event P)) :
    enteredTerms ((Node.actor a).around ((Node.utility a).around events)) =
      .actor a :: enteredTerms events := by
  rw [enteredTerms_around, enteredTerms_around]
  rfl

theorem Actor.enteredTerms_events (a : Actor P) : enteredTerms a.events = a.terms := by
  induction a with
  | atomic type source pos =>
      rw [Actor.events, enteredTerms_around, source.enteredTerms_events]
      rfl
  | joiner type map output pos =>
      rw [Actor.events, enteredTerms_utility, map.enteredTerms_events]
      rfl
  | copy map pos | rename map pos | identityMap map pos =>
      rw [Actor.events, enteredTerms_utility, map.enteredTerms_events]
      rfl
  | identity inner pos ih =>
      rw [Actor.events, enteredTerms_utility, ih]
      rfl
  | sequence first second pos ihf ihs | parallel first second pos ihf ihs =>
      rw [Actor.events, enteredTerms_around, enteredTerms_append, ihf, ihs]
      rfl
  | ifThenElse condition thenActor elseActor pos iht ihe =>
      rw [Actor.events, enteredTerms_around, enteredTerms_append, enteredTerms_append,
        condition.enteredTerms_events, iht, ihe, List.append_assoc]
      rfl
  | iterate watched inner pos ih =>
      rw [Actor.events, enteredTerms_around, ih]
      rfl
  | parens inner pos ih =>
      rw [Actor.events, enteredTerms_around, ih]
      rfl
  | call | testSpecToSpec | specToTestSpec | named => rfl

theorem Statement.enteredTerms_events (st : Statement P) : enteredTerms st.events = st.terms := by
  cases st with
  | assign target value =>
      rw [Statement.events, enteredTerms_around]
      cases value with
      | expression e => exact e.enteredTerms_events
      | artifact a => exact a.enteredTerms_events
      | argMap m => exact m.enteredTerms_events
      | actor a => exact a.enteredTerms_events
      | literal l => rfl
  | print actor pos =>
      rw [Statement.events, enteredTerms_around]
      exact actor.enteredTerms_events
  | execute actor inputs pos =>
      have hinputs : enteredTerms inputs.events = [] := by
        cases inputs with
        | named id => rfl
        | argMap m => exact m.enteredTerms_events
      rw [Statement.events, enteredTerms_around, enteredTerms_append, hinputs, List.append_nil]
      exact actor.enteredTerms_events
  | ret => rfl

theorem Block.enteredTerms_events (b : Block P) :
    enteredTerms b.events = b.statements.flatMap Statement.terms := by
  rw [Block.events, enteredTerms_around, enteredTerms_flatMap]
  simp only [Statement.enteredTerms_events]
  rfl

/-- A walk enters all terms, and each of them once. -/
theorem Program.filterMap_term_nodes (p : Program P) : p.nodes.filterMap Node.term? = p.terms := by
  have hfunction : ∀ f : Function P,
      enteredTerms f.events = f.body.statements.flatMap Statement.terms := by
    intro f
    rw [Function.events, enteredTerms_around, Block.enteredTerms_events]
    rfl
  have hevents : enteredTerms p.events = p.terms := by
    rw [Program.events, enteredTerms_around, enteredTerms_append, enteredTerms_flatMap,
      Block.enteredTerms_events]
    simp only [hfunction, Program.terms, Program.statements, List.flatMap_append,
      List.flatMap_assoc]
    rfl
  rw [Program.nodes, List.filterMap_filterMap]
  exact hevents

/-! ## What is reported -/

namespace Lint

theorem parensAround_name (x : String) (pos : P) : parensAround ("'" ++ x ++ "'") pos =
    ⟨.redundantParens, "redundant parentheses around '" ++ x ++ "'", pos⟩ := by
  have hmessage : "redundant parentheses around " ++ ("'" ++ x ++ "'") =
      "redundant parentheses around '" ++ x ++ "'" := by
    rw [← String.append_assoc, ← String.append_assoc]
    rfl
  rw [parensAround, hmessage]

/-- Each rule reports the findings of its own. -/
theorem onNode_eq (rule : LintRule) (n : Node P) :
    onNode rule n = (n.term?.bind Term.finding?).filter fun f => f.rule = rule := by
  cases n with
  | actor a =>
      cases a with
      | parens inner pos =>
          cases inner with
          | named id =>
              cases rule with
              | doubleNegation => rfl
              | redundantParens => exact congrArg some (parensAround_name id.name pos)
          | _ => cases rule <;> rfl
      | _ => cases rule <;> rfl
  | expr e =>
      cases e with
      | parens inner pos =>
          cases inner with
          | named id =>
              cases rule with
              | doubleNegation => rfl
              | redundantParens => exact congrArg some (parensAround_name id.name pos)
          | _ => cases rule <;> rfl
      | not operand pos => cases operand <;> cases rule <;> rfl
      | _ => cases rule <;> rfl
  | _ => rfl

end Lint

theorem Program.filterMap_onNode (p : Program P) (rule : LintRule) :
    p.nodes.filterMap (Lint.onNode rule) = p.due.filter fun f => f.rule = rule := by
  rw [due, ← p.filterMap_term_nodes, List.filterMap_filterMap, List.filter_filterMap]
  exact List.filterMap_congr fun n _ => Lint.onNode_eq rule n

theorem Program.findings_perm (p : Program Position) : p.findings.Perm p.due := by
  refine (List.mergeSort_perm _ _).trans ?_
  have hrules : (LintRule.all.flatMap fun rule => p.nodes.filterMap (Lint.onNode rule)) =
      (p.due.filter fun f => f.rule = .doubleNegation) ++
        p.due.filter fun f => !decide (f.rule = .doubleNegation) := by
    have hother : ∀ f : Finding Position,
        decide (f.rule = .redundantParens) = !decide (f.rule = .doubleNegation) := by
      rintro ⟨rule, message, pos⟩
      cases rule <;> rfl
    simp [LintRule.all, Program.filterMap_onNode, hother]
  rw [hrules]
  exact List.filter_append_perm _ _

/-! ## The order of findings -/

/-- What findings are sorted by: line, column, offset, and the name of the rule. -/
def Finding.key (f : Finding Position) : ℕ ×ₗ ℕ ×ₗ ℕ ×ₗ String :=
  toLex (f.pos.line, toLex (f.pos.column, toLex (f.pos.offset, f.rule.name)))

theorem LintRule.name_le_name {r s : LintRule} : r.name ≤ s.name ↔ r ≤ s := by
  cases r <;> cases s <;> decide

theorem Lint.inOrder_iff {f g : Finding Position} : inOrder f g = true ↔ f.key ≤ g.key := by
  obtain ⟨r, _, ⟨line, column, offset⟩⟩ := f
  obtain ⟨s, _, ⟨line', column', offset'⟩⟩ := g
  have hpos : (⟨line, column, offset⟩ : Position) ≤ ⟨line', column', offset'⟩ ↔
      line < line' ∨ line = line' ∧ (column < column' ∨ column = column' ∧ offset ≤ offset') :=
    Iff.rfl
  simp only [inOrder, Finding.key, Prod.Lex.toLex_le_toLex, LintRule.name_le_name,
    decide_eq_true_eq, Position.mk.injEq, hpos]
  by_cases hrule : r ≤ s
  · simp only [hrule, implies_true, and_true]
    omega
  · simp only [hrule, imp_false, and_false, or_false]
    omega

theorem Program.findings_sorted (p : Program Position) :
    p.findings.Pairwise fun f g => f.key ≤ g.key := by
  have htrans : ∀ f g h : Finding Position, Lint.inOrder f g → Lint.inOrder g h →
      Lint.inOrder f h := by
    intro f g h hfg hgh
    exact Lint.inOrder_iff.2 (le_trans (Lint.inOrder_iff.1 hfg) (Lint.inOrder_iff.1 hgh))
  have htotal : ∀ f g : Finding Position, (Lint.inOrder f g || Lint.inOrder g f) = true := by
    intro f g
    rw [Bool.or_eq_true, Lint.inOrder_iff, Lint.inOrder_iff]
    exact le_total _ _
  exact (List.pairwise_mergeSort htrans htotal _).imp Lint.inOrder_iff.1

/-! ## Findings in a source -/

namespace Node

/-- A node comes behind another one, or at the same place if that one can begin with others. -/
def Precedes (before : P → P → Prop) (n m : Node P) : Prop :=
  ∃ p q, n.pos? = some p ∧ m.pos? = some q ∧ (before p q ∨ p = q ∧ ∃ k, n.Shares k)

theorem Follows.precedes {before : P → P → Prop} {n m : Node P} (h : Follows before n m) :
    Precedes before n m := by
  obtain ⟨p, q, hp, hq, hpq | ⟨hpq, hshares⟩⟩ := h
  · exact ⟨p, q, hp, hq, .inl hpq⟩
  · exact ⟨p, q, hp, hq, .inr ⟨hpq, m, hshares⟩⟩

theorem Precedes.trans {before : P → P → Prop}
    (htrans : ∀ p q r : P, before p q → before q r → before p r) {n m k : Node P}
    (h : Precedes before n m) (h' : Precedes before m k) : Precedes before n k := by
  obtain ⟨p, q, hp, hq, hpq⟩ := h
  obtain ⟨q', r, hq', hr, hqr⟩ := h'
  obtain rfl : q = q' := Option.some.inj (hq.symm.trans hq')
  refine ⟨p, r, hp, hr, ?_⟩
  rcases hpq with hpq | ⟨rfl, hshares⟩
  · rcases hqr with hqr | ⟨rfl, -⟩
    · exact .inl (htrans _ _ _ hpq hqr)
    · exact .inl hpq
  · rcases hqr with hqr | ⟨rfl, -⟩
    · exact .inl hqr
    · exact .inr ⟨rfl, hshares⟩

/-- A node with a finding has its token for itself. -/
theorem finding_place {n : Node P} {f : Finding P} (h : n.term?.bind Term.finding? = some f) :
    n.pos? = some f.pos ∧ ¬ ∃ k, n.Shares k := by
  cases n with
  | actor a =>
      cases a with
      | parens inner pos =>
          have hown : ¬ ∃ k, (Node.actor (.parens inner pos)).Shares k := by
            rintro ⟨k, hk⟩
            cases k <;> simp [Shares, Actor.isUtility] at hk
          cases inner <;> cases h <;> exact ⟨rfl, hown⟩
      | _ => cases h
  | expr e =>
      cases e with
      | parens inner pos =>
          have hown : ¬ ∃ k, (Node.expr (.parens inner pos)).Shares k := by
            rintro ⟨k, hk⟩
            cases k <;> exact hk
          cases inner <;> cases h <;> exact ⟨rfl, hown⟩
      | not operand pos =>
          have hown : ¬ ∃ k, (Node.expr (.not operand pos)).Shares k := by
            rintro ⟨k, hk⟩
            cases k <;> exact hk
          cases operand <;> cases h
          exact ⟨rfl, hown⟩
      | _ => cases h
  | _ => cases h

end Node

/-- Due findings are at places one behind the other, as the tokens are. -/
theorem Program.due_pairwise (before : P → P → Prop)
    (htrans : ∀ p q r : P, before p q → before q r → before p r) {p : Program P}
    (h : p.nodes.tail.IsChain (Node.Follows before)) :
    p.due.Pairwise fun f g => before f.pos g.pos := by
  have hdue : p.due = p.nodes.tail.filterMap fun n => n.term?.bind Term.finding? := by
    rw [due, ← p.filterMap_term_nodes, List.filterMap_filterMap, p.nodes_eq]
    rfl
  have : Trans (Node.Precedes before) (Node.Precedes before) (Node.Precedes before) :=
    ⟨Node.Precedes.trans htrans⟩
  have hnodes := (h.imp fun n m hnm => hnm.precedes).pairwise
  rw [hdue]
  refine hnodes.filterMap _ ?_
  rintro n m ⟨q, r, hq, hr, hqr⟩ f hf g hg
  obtain ⟨hfpos, hown⟩ := Node.finding_place hf
  obtain ⟨hgpos, -⟩ := Node.finding_place hg
  obtain rfl : q = f.pos := Option.some.inj (hq.symm.trans hfpos)
  obtain rfl : r = g.pos := Option.some.inj (hr.symm.trans hgpos)
  rcases hqr with hqr | ⟨-, hshares⟩
  · exact hqr
  · exact absurd hshares hown

/-- The tokens of a source that is a program. -/
theorem Program.exists_tokens_of_parse {limits : Limits} {source : String} {p : Program Position}
    (h : Program.parse limits source = .ok p) :
    ∃ tokens, tokenize source = .ok tokens ∧ Terminated tokens ∧
      Program.ofTokens limits tokens = .ok p := by
  obtain ⟨tokens, htokens, hp⟩ := Program.exists_tokenize h
  obtain ⟨body, last, hbody, hlast, hall⟩ := Lexer.scan_spec htokens
  exact ⟨tokens, htokens, ⟨body, last, hbody, hlast, fun t ht => (hall t ht).1⟩, hp⟩

theorem Program.due_pairwise_of_parse (before : Position → Position → Prop)
    (htrans : ∀ p q r, before p q → before q r → before p r) {limits : Limits} {source : String}
    {p : Program Position} (h : Program.parse limits source = .ok p)
    (hpairs : ∀ tokens, tokenize source = .ok tokens →
      tokens.Pairwise fun t u => before t.pos u.pos) :
    p.due.Pairwise fun f g => before f.pos g.pos := by
  obtain ⟨tokens, htokens, hterm, hp⟩ := Program.exists_tokens_of_parse h
  obtain ⟨-, -, hchain, -⟩ :=
    Program.walk_of_ofTokens before hterm hp (spelled_of_tokenize htokens) (hpairs tokens htokens)
  exact Program.due_pairwise before htrans hchain

theorem Program.due_before_of_parse {limits : Limits} {source : String} {p : Program Position}
    (hfit : Position.Fit source.toList) (h : Program.parse limits source = .ok p) :
    p.due.Pairwise fun f g => f.pos.Before g.pos :=
  Program.due_pairwise_of_parse Position.Before (fun _ _ _ => Position.Before.trans) h
    fun _ htokens => (splits_of_tokenize hfit htokens).pairwise

/-- Due findings are at different places also where lines and columns do not fit. -/
theorem Program.nodup_due_of_parse {limits : Limits} {source : String} {p : Program Position}
    (h : Program.parse limits source = .ok p) : (p.due.map Finding.pos).Nodup := by
  have hoffsets := Program.due_pairwise_of_parse (fun p q => p.offset < q.offset)
    (fun _ _ _ => Nat.lt_trans) h fun _ => offset_pairwise_of_tokenize
  refine List.pairwise_map.2 (hoffsets.imp fun hlt heq => ?_)
  exact Nat.ne_of_lt hlt (congrArg Position.offset heq)

theorem Position.Before.ne {p q : Position} (h : p.Before q) : p ≠ q := by
  rintro rfl
  exact Nat.lt_irrefl _ h.1

theorem Finding.key_le_of_before {f g : Finding Position} (h : f.pos.Before g.pos) :
    f.key ≤ g.key := by
  obtain ⟨-, hline | ⟨hline, hcolumn⟩⟩ := h
  · exact Prod.Lex.toLex_le_toLex.2 (.inl hline)
  · exact Prod.Lex.toLex_le_toLex.2 (.inr ⟨hline, Prod.Lex.toLex_le_toLex.2 (.inl hcolumn)⟩)

/-- Findings with the same key are at the same place. -/
theorem Finding.pos_eq_of_key_le {f g : Finding Position} (h : f.key ≤ g.key) (h' : g.key ≤ f.key) :
    f.pos = g.pos := by
  have hkey := le_antisymm h h'
  obtain ⟨r, _, ⟨line, column, offset⟩⟩ := f
  obtain ⟨s, _, ⟨line', column', offset'⟩⟩ := g
  simp_all [Finding.key]

/-- Findings at different places are at greater and greater places. -/
theorem Program.findings_increasing {p : Program Position} (h : (p.due.map Finding.pos).Nodup) :
    p.findings.Pairwise fun f g => f.pos ≤ g.pos ∧ f.pos ≠ g.pos := by
  have hplaces : (p.findings.map Finding.pos).Nodup :=
    (p.findings_perm.map Finding.pos).nodup_iff.2 h
  refine (p.findings_sorted.and (List.pairwise_map.1 hplaces)).imp fun ⟨hle, hne⟩ => ⟨?_, hne⟩
  have horder := Lint.inOrder_iff.2 hle
  rw [Lint.inOrder, decide_eq_true_eq] at horder
  exact horder.1

/-- Findings at different places are sorted in one way only. -/
theorem Program.findings_eq {p : Program Position} {fs : List (Finding Position)}
    (hdue : p.due.Perm fs) (hsorted : fs.Pairwise fun f g => f.key ≤ g.key)
    (hplaces : (fs.map Finding.pos).Nodup) : p.findings = fs := by
  have hperm := p.findings_perm.trans hdue
  refine hperm.eq_of_pairwise ?_ p.findings_sorted hsorted
  intro f g hf hg hfg hgf
  exact List.inj_on_of_nodup_map hplaces (hperm.mem_iff.1 hf) hg (Finding.pos_eq_of_key_le hfg hgf)

theorem Program.findings_eq_due {p : Program Position}
    (h : p.due.Pairwise fun f g => f.pos.Before g.pos) : p.findings = p.due :=
  Program.findings_eq (.refl _) (h.imp Finding.key_le_of_before)
    (List.pairwise_map.2 (h.imp Position.Before.ne))

/-! ## Findings and shapes -/

def Finding.wording (f : Finding P) : LintRule × String :=
  (f.rule, f.message)

def Term.map (f : P → Q) : Term P → Term Q
  | expr e => .expr (e.map f)
  | actor a => .actor (a.map f)

theorem Expr.terms_map (f : P → Q) (e : Expr P) : (e.map f).terms = e.terms.map (Term.map f) := by
  induction e with
  | not operand pos ih => simp [Expr.map, Expr.terms, Term.map, ih]
  | parens inner pos ih => simp [Expr.map, Expr.terms, Term.map, ih]
  | binary left op opPos right ihl ihr => simp [Expr.map, Expr.terms, Term.map, ihl, ihr]
  | instanceOf | elementOf | named => rfl

theorem Actor.terms_map (f : P → Q) (a : Actor P) :
    (a.map f).terms = a.terms.map (Term.map f) := by
  induction a with
  | identity inner pos ih => simp [Actor.map, Actor.terms, Term.map, ih]
  | iterate watched inner pos ih => simp [Actor.map, Actor.terms, Term.map, ih]
  | parens inner pos ih => simp [Actor.map, Actor.terms, Term.map, ih]
  | sequence first second pos ihf ihs | parallel first second pos ihf ihs =>
      simp [Actor.map, Actor.terms, Term.map, ihf, ihs]
  | ifThenElse condition thenActor elseActor pos iht ihe =>
      simp [Actor.map, Actor.terms, Term.map, Expr.terms_map, iht, ihe]
  | _ => rfl

theorem Statement.terms_map (f : P → Q) (st : Statement P) :
    (st.map f).terms = st.terms.map (Term.map f) := by
  cases st with
  | assign target value =>
      cases value with
      | expression e => exact e.terms_map f
      | actor a => exact a.terms_map f
      | artifact | argMap | literal => rfl
  | print actor pos | execute actor inputs pos => exact actor.terms_map f
  | ret => rfl

theorem Program.terms_map (f : P → Q) (p : Program P) :
    (p.map f).terms = p.terms.map (Term.map f) := by
  have hstatements : (p.map f).statements = p.statements.map (Statement.map f) := by
    simp [Program.statements, Program.map, Function.map, Block.map, List.flatMap_map,
      List.map_flatMap]
  simp [Program.terms, hstatements, List.flatMap_map, List.map_flatMap, Statement.terms_map]

/-- Whether a finding is due, and what it says, does not depend on places. -/
theorem Term.wording_map (f : P → Q) (t : Term P) :
    (t.map f).finding?.map Finding.wording = t.finding?.map Finding.wording := by
  cases t with
  | expr e =>
      cases e with
      | not operand pos => cases operand <;> rfl
      | parens inner pos => cases inner <;> rfl
      | _ => rfl
  | actor a =>
      cases a with
      | parens inner pos => cases inner <;> rfl
      | _ => rfl

theorem Program.wording_due_shape (p : Program P) :
    p.shape.due.map Finding.wording = p.due.map Finding.wording := by
  rw [due, due, shape, terms_map, List.filterMap_map, List.map_filterMap, List.map_filterMap]
  exact List.filterMap_congr fun t _ => Term.wording_map _ t

/-- The findings of any tree are the due ones, sorted by place and rule. In a program that was read
from a source they are at greater and greater places. If the lines and columns of the source fit
into 32 bits, these are one behind the other in the source, and the findings are in the order of the
terms, so that such programs of the same shape have findings of the same wording, in the same
order. -/
theorem Program.findings_exact (p : Program Position) :
    (p.findings.Pairwise fun f g => f.key ≤ g.key) ∧ p.findings.Perm p.due ∧
      ∀ limits source, Program.parse limits source = .ok p →
        (p.findings.Pairwise fun f g => f.pos ≤ g.pos ∧ f.pos ≠ g.pos) ∧
        (Position.Fit source.toList →
          (p.findings.Pairwise fun f g => f.pos.Before g.pos) ∧ p.findings = p.due ∧
          ∀ limits' source' q, Program.parse limits' source' = .ok q →
            Position.Fit source'.toList → p.shape = q.shape →
            p.findings.map Finding.wording = q.findings.map Finding.wording) := by
  refine ⟨p.findings_sorted, p.findings_perm, fun limits source h => ?_⟩
  refine ⟨Program.findings_increasing (Program.nodup_due_of_parse h), fun hfit => ?_⟩
  have hpairs := Program.due_before_of_parse hfit h
  have hp := Program.findings_eq_due hpairs
  refine ⟨hp ▸ hpairs, hp, fun limits' source' q h' hfit' hshape => ?_⟩
  have hq := Program.findings_eq_due (Program.due_before_of_parse hfit' h')
  rw [hp, hq, ← p.wording_due_shape, ← q.wording_due_shape, hshape]

/-- The program `x = NOT NOT ((a));` on one line, with the places of its later tokens. -/
def Program.flawedSample (outerNot innerNot outerParen innerParen name : Nat) :
    Program Position :=
  let place (offset : Nat) : Position := ⟨1, offset + 1, offset⟩
  ⟨[], [.assign ⟨"x", place 0⟩ (.expression (.not (.not (.parens (.parens
    (.named ⟨"a", place name⟩) (place innerParen)) (place outerParen)) (place innerNot))
    (place outerNot)))], place 0⟩

/-- Three findings behind each other, which another layout keeps. -/
theorem Program.findings_flawedSample :
    Program.parse {} "x = NOT NOT ((a));" = .ok (Program.flawedSample 4 8 12 13 14) ∧
      Program.parse {} "x=NOT NOT((a));" = .ok (Program.flawedSample 2 6 9 10 11) ∧
      (Program.flawedSample 4 8 12 13 14).findings =
        [⟨.doubleNegation, "double negation cancels out", ⟨1, 5, 4⟩⟩,
          ⟨.redundantParens, "redundant parentheses around a parenthesized expression",
            ⟨1, 13, 12⟩⟩,
          ⟨.redundantParens, "redundant parentheses around 'a'", ⟨1, 14, 13⟩⟩] ∧
      (Program.flawedSample 4 8 12 13 14).findings.map Finding.wording =
        (Program.flawedSample 2 6 9 10 11).findings.map Finding.wording := by
  have hparse : Program.parse {} "x = NOT NOT ((a));" =
      .ok (Program.flawedSample 4 8 12 13 14) := by
    decide +kernel
  have hdense : Program.parse {} "x=NOT NOT((a));" = .ok (Program.flawedSample 2 6 9 10 11) := by
    decide +kernel
  have hfit : Position.Fit "x = NOT NOT ((a));".toList := Position.fit_of_length (by decide)
  have hfit' : Position.Fit "x=NOT NOT((a));".toList := Position.fit_of_length (by decide)
  obtain ⟨-, hdue, hshape⟩ := ((Program.findings_exact _).2.2 _ _ hparse).2 hfit
  exact ⟨hparse, hdense, hdue, hshape _ _ _ hdense hfit' rfl⟩

/-! ## Findings on lines that do not fit -/

def emptyLines (n : Nat) : String :=
  String.ofList (List.replicate n '\n')

theorem Program.parse_emptyLines (n : Nat) :
    ∃ pos, Program.parse {} (emptyLines n) = .ok ⟨[], ⟨[], pos⟩⟩ := by
  have hgap : Lexer.Gap (List.replicate n '\n') [] := by
    induction n with
    | zero => exact .nil []
    | succ n ih => exact .cons (.blank rfl _) ih
  have htokens : tokenize (emptyLines n) =
      .ok [⟨.eof, "", (Position.behind (List.replicate n '\n')).wrapped⟩] := by
    refine tokenize_eq_ok_iff.2 ⟨[⟨.eof, "", .behind (List.replicate n '\n')⟩], ?_, rfl⟩
    rw [emptyLines, String.toList_ofList]
    exact .ending hgap
  refine ⟨(Position.behind (List.replicate n '\n')).wrapped, ?_⟩
  rw [Program.parse, htokens]
  rfl

/-- The program `x = NOT NOT a;` with `y = (b);` on a line below, at places moved by `f`. -/
def Program.distantSample (f : Position → Position) : Program Position where
  functions := []
  body :=
    ⟨[.assign ⟨"x", ⟨1, 1, 0⟩⟩ (.expression (.not (.not (.named ⟨"a", ⟨1, 13, 12⟩⟩) ⟨1, 9, 8⟩)
        ⟨1, 5, 4⟩)),
      .assign ⟨"y", f ⟨1, 1, 0⟩⟩ (.expression (.parens (.named ⟨"b", f ⟨1, 6, 5⟩⟩) (f ⟨1, 5, 4⟩)))],
      ⟨1, 1, 0⟩⟩

def distantLines (n : Nat) : String :=
  "x = NOT NOT a;" ++ "\n" ++ emptyLines n

theorem Program.parse_distantSample (n : Nat) :
    Program.parse {} (distantLines n ++ "\n" ++ "y = (b);") =
      .ok (distantSample (.below (distantLines n))) := by
  have hfirst : Program.parse {} "x = NOT NOT a;" = .ok ⟨[], ⟨[.assign ⟨"x", ⟨1, 1, 0⟩⟩
      (.expression (.not (.not (.named ⟨"a", ⟨1, 13, 12⟩⟩) ⟨1, 9, 8⟩) ⟨1, 5, 4⟩))],
        ⟨1, 1, 0⟩⟩⟩ := by
    decide +kernel
  have hsecond : Program.parse {} "y = (b);" = .ok ⟨[], ⟨[.assign ⟨"y", ⟨1, 1, 0⟩⟩
      (.expression (.parens (.named ⟨"b", ⟨1, 6, 5⟩⟩) ⟨1, 5, 4⟩))], ⟨1, 1, 0⟩⟩⟩ := by
    decide +kernel
  obtain ⟨pos, hempty⟩ := Program.parse_emptyLines n
  exact Program.parse_followedBy (Program.parse_followedBy hfirst hempty (.inr rfl)) hsecond
    (.inr rfl)

theorem Position.line_below_distantLines (p : Position) (n : Nat) :
    (p.below (distantLines n)).line = (p.line + (n + 2)) % UInt32.size := by
  have hcount : (distantLines n).toList.count '\n' = n + 1 := by
    rw [distantLines, String.toList_append, List.count_append, emptyLines, String.toList_ofList,
      List.count_replicate_self, Nat.add_comm]
    rfl
  rw [below, hcount, Nat.add_comm 1]

theorem Program.due_distantSample (f : Position → Position) : (distantSample f).due =
    [⟨.doubleNegation, "double negation cancels out", ⟨1, 5, 4⟩⟩,
      ⟨.redundantParens, "redundant parentheses around 'b'", f ⟨1, 5, 4⟩⟩] := rfl

/-- Findings on different lines are listed by line. -/
theorem Program.findings_eq_of_line {p : Program Position} {fs : List (Finding Position)}
    (hdue : p.due.Perm fs) (hlines : fs.Pairwise fun d e => d.pos.line < e.pos.line) :
    p.findings = fs := by
  refine Program.findings_eq hdue (hlines.imp ?_) (List.pairwise_map.2 (hlines.imp ?_))
  · intro d e hlt
    exact Prod.Lex.toLex_le_toLex.2 (.inl hlt)
  · intro d e hlt heq
    exact Nat.ne_of_lt hlt (congrArg Position.line heq)

/-- A finding on line zero is listed before one that its statement comes behind, and so programs of
one shape need not have their findings in one order. -/
theorem Program.findings_distantSample {f g : Position → Position}
    (hzero : (f ⟨1, 5, 4⟩).line = 0) (hbelow : 1 < (g ⟨1, 5, 4⟩).line) :
    (distantSample f).shape = (distantSample g).shape ∧
      (distantSample f).findings ≠ (distantSample f).due ∧
      (distantSample f).findings.map Finding.wording ≠
        (distantSample g).findings.map Finding.wording := by
  have hf : (distantSample f).findings = (distantSample f).due.reverse := by
    refine Program.findings_eq_of_line (List.reverse_perm _).symm ?_
    simp [Program.due_distantSample, hzero]
  have hg : (distantSample g).findings = (distantSample g).due := by
    refine Program.findings_eq_of_line (.refl _) ?_
    simp [Program.due_distantSample, hbelow]
  rw [hf, hg, Program.due_distantSample, Program.due_distantSample]
  refine ⟨rfl, ?_, ?_⟩ <;> simp [Finding.wording]

/-- With as many empty lines between two statements as 32 bits can count, the second one is on line
zero. -/
theorem Program.findings_ne_due_distantSample :
    ∃ p q, Program.parse {} (distantLines (UInt32.size - 3) ++ "\n" ++ "y = (b);") = .ok p ∧
      Program.parse {} (distantLines 0 ++ "\n" ++ "y = (b);") = .ok q ∧ p.shape = q.shape ∧
      p.findings ≠ p.due ∧
      p.findings.map Finding.wording ≠ q.findings.map Finding.wording := by
  refine ⟨_, _, Program.parse_distantSample _, Program.parse_distantSample 0, ?_⟩
  apply Program.findings_distantSample
  · rw [Position.line_below_distantLines]
    rfl
  · rw [Position.line_below_distantLines]
    decide

end ActorLang
