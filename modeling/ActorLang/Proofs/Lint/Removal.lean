import ActorLang.Proofs.Balance
import ActorLang.Proofs.Grammar.Complete
import ActorLang.Proofs.Lint

/-!
# Redundant parentheses can be left out

Where parentheses around a name or around other parentheses are reported, the tokens without that
pair are a program as well, and its tree is the old one with the inner node in place of the
parenthesized one. A pair is left out of a tree inside one expression or actor of one statement;
what stands around it decides as before, since a name and a parenthesized term are operands of the
same kind. A row of the tree loses the opening parenthesis and the one that closes it.
-/

namespace ActorLang

open Leaf TokenKind

variable {P α : Type} {pos : P}

/-! ## Trees without a pair -/

/-- A redundant pair of parentheses, which opens at `pos`, is left out of an expression. -/
inductive Expr.Trims (pos : P) : Expr P → Expr P → Prop
  | name (id : Ident P) : Trims pos (.parens (.named id) pos) (.named id)
  | double (inner : Expr P) (pos' : P) :
      Trims pos (.parens (.parens inner pos') pos) (.parens inner pos')
  | not {e e' : Expr P} (h : Trims pos e e') (pos' : P) : Trims pos (.not e pos') (.not e' pos')
  | parens {e e' : Expr P} (h : Trims pos e e') (pos' : P) :
      Trims pos (.parens e pos') (.parens e' pos')
  | left {e e' : Expr P} (h : Trims pos e e') (op : BinOp) (opPos : P) (right : Expr P) :
      Trims pos (.binary e op opPos right) (.binary e' op opPos right)
  | right {e e' : Expr P} (left : Expr P) (op : BinOp) (opPos : P) (h : Trims pos e e') :
      Trims pos (.binary left op opPos e) (.binary left op opPos e')

inductive Actor.Trims (pos : P) : Actor P → Actor P → Prop
  | name (id : Ident P) : Trims pos (.parens (.named id) pos) (.named id)
  | double (inner : Actor P) (pos' : P) :
      Trims pos (.parens (.parens inner pos') pos) (.parens inner pos')
  | identity {a a' : Actor P} (h : Trims pos a a') (pos' : P) :
      Trims pos (.identity a pos') (.identity a' pos')
  | first {a a' : Actor P} (h : Trims pos a a') (b : Actor P) (pos' : P) :
      Trims pos (.sequence a b pos') (.sequence a' b pos')
  | second {b b' : Actor P} (a : Actor P) (h : Trims pos b b') (pos' : P) :
      Trims pos (.sequence a b pos') (.sequence a b' pos')
  | condition {e e' : Expr P} (h : e.Trims pos e') (a b : Actor P) (pos' : P) :
      Trims pos (.ifThenElse e a b pos') (.ifThenElse e' a b pos')
  | thenActor {a a' : Actor P} (e : Expr P) (h : Trims pos a a') (b : Actor P) (pos' : P) :
      Trims pos (.ifThenElse e a b pos') (.ifThenElse e a' b pos')
  | elseActor {b b' : Actor P} (e : Expr P) (a : Actor P) (h : Trims pos b b') (pos' : P) :
      Trims pos (.ifThenElse e a b pos') (.ifThenElse e a b' pos')
  | iterate {a a' : Actor P} (watched : Ident P) (h : Trims pos a a') (pos' : P) :
      Trims pos (.iterate watched a pos') (.iterate watched a' pos')
  | left {a a' : Actor P} (h : Trims pos a a') (b : Actor P) (pos' : P) :
      Trims pos (.parallel a b pos') (.parallel a' b pos')
  | right {b b' : Actor P} (a : Actor P) (h : Trims pos b b') (pos' : P) :
      Trims pos (.parallel a b pos') (.parallel a b' pos')
  | parens {a a' : Actor P} (h : Trims pos a a') (pos' : P) :
      Trims pos (.parens a pos') (.parens a' pos')

inductive Statement.Trims (pos : P) : Statement P → Statement P → Prop
  | expression {e e' : Expr P} (target : Ident P) (h : e.Trims pos e') :
      Trims pos (.assign target (.expression e)) (.assign target (.expression e'))
  | actor {a a' : Actor P} (target : Ident P) (h : a.Trims pos a') :
      Trims pos (.assign target (.actor a)) (.assign target (.actor a'))
  | print {a a' : Actor P} (h : a.Trims pos a') (pos' : P) :
      Trims pos (.print a pos') (.print a' pos')
  | execute {a a' : Actor P} (h : a.Trims pos a') (inputs : Inputs P) (pos' : P) :
      Trims pos (.execute a inputs pos') (.execute a' inputs pos')

def Changes (R : α → α → Prop) (as bs : List α) : Prop :=
  ∃ us a b vs, R a b ∧ as = us ++ a :: vs ∧ bs = us ++ b :: vs

def Block.Trims (pos : P) (b c : Block P) : Prop :=
  ∃ statements, Changes (Statement.Trims pos) b.statements statements ∧
    c = { b with statements := statements }

def Function.Trims (pos : P) (f g : Function P) : Prop :=
  ∃ body, f.body.Trims pos body ∧ g = { f with body := body }

/-- A redundant pair of parentheses, which opens at `pos`, is left out of a program. All that stands
around it is the same, with all places. -/
def Program.Trims (pos : P) (p q : Program P) : Prop :=
  (∃ functions, Changes (Function.Trims pos) p.functions functions ∧
      q = { p with functions := functions }) ∨
    ∃ body, p.body.Trims pos body ∧ q = { p with body := body }

/-! ## Findings -/

theorem Expr.trims_of_finding {e : Expr P} {d : Finding P} (h : (Term.expr e).finding? = some d)
    (hrule : d.rule = .redundantParens) : ∃ e', e.Trims d.pos e' := by
  cases e with
  | parens inner pos =>
      cases inner with
      | named id =>
          obtain rfl := Option.some.inj h
          exact ⟨_, .name id⟩
      | parens inner pos' =>
          obtain rfl := Option.some.inj h
          exact ⟨_, .double inner pos'⟩
      | _ => cases h
  | not operand pos =>
      cases operand with
      | not operand pos' =>
          obtain rfl := Option.some.inj h
          cases hrule
      | _ => cases h
  | _ => cases h

theorem Actor.trims_of_finding {a : Actor P} {d : Finding P}
    (h : (Term.actor a).finding? = some d) : ∃ a', a.Trims d.pos a' := by
  cases a with
  | parens inner pos =>
      cases inner with
      | named id =>
          obtain rfl := Option.some.inj h
          exact ⟨_, .name id⟩
      | parens inner pos' =>
          obtain rfl := Option.some.inj h
          exact ⟨_, .double inner pos'⟩
      | _ => cases h
  | _ => cases h

section Findings

variable {t : Term P} {d : Finding P} (hd : t.finding? = some d) (hrule : d.rule = .redundantParens)
include hd hrule

theorem Expr.exists_trims {e : Expr P} (ht : t ∈ e.terms) : ∃ e', e.Trims d.pos e' := by
  induction e with
  | not operand pos ih =>
      rcases List.mem_cons.1 ht with rfl | ht
      · exact Expr.trims_of_finding hd hrule
      · obtain ⟨e', h⟩ := ih ht
        exact ⟨_, .not h pos⟩
  | parens inner pos ih =>
      rcases List.mem_cons.1 ht with rfl | ht
      · exact Expr.trims_of_finding hd hrule
      · obtain ⟨e', h⟩ := ih ht
        exact ⟨_, .parens h pos⟩
  | binary left op opPos right ihl ihr =>
      rcases List.mem_cons.1 ht with rfl | ht
      · exact Expr.trims_of_finding hd hrule
      · rcases List.mem_append.1 ht with ht | ht
        · obtain ⟨e', h⟩ := ihl ht
          exact ⟨_, .left h op opPos right⟩
        · obtain ⟨e', h⟩ := ihr ht
          exact ⟨_, .right left op opPos h⟩
  | instanceOf | elementOf | named =>
      obtain rfl := List.mem_singleton.1 ht
      exact Expr.trims_of_finding hd hrule

theorem Actor.exists_trims {a : Actor P} (ht : t ∈ a.terms) : ∃ a', a.Trims d.pos a' := by
  induction a with
  | identity inner pos ih =>
      rcases List.mem_cons.1 ht with rfl | ht
      · exact Actor.trims_of_finding hd
      · obtain ⟨a', h⟩ := ih ht
        exact ⟨_, .identity h pos⟩
  | iterate watched inner pos ih =>
      rcases List.mem_cons.1 ht with rfl | ht
      · exact Actor.trims_of_finding hd
      · obtain ⟨a', h⟩ := ih ht
        exact ⟨_, .iterate watched h pos⟩
  | parens inner pos ih =>
      rcases List.mem_cons.1 ht with rfl | ht
      · exact Actor.trims_of_finding hd
      · obtain ⟨a', h⟩ := ih ht
        exact ⟨_, .parens h pos⟩
  | sequence first second pos ih₁ ih₂ =>
      rcases List.mem_cons.1 ht with rfl | ht
      · exact Actor.trims_of_finding hd
      · rcases List.mem_append.1 ht with ht | ht
        · obtain ⟨a', h⟩ := ih₁ ht
          exact ⟨_, .first h second pos⟩
        · obtain ⟨b', h⟩ := ih₂ ht
          exact ⟨_, .second first h pos⟩
  | parallel first second pos ih₁ ih₂ =>
      rcases List.mem_cons.1 ht with rfl | ht
      · exact Actor.trims_of_finding hd
      · rcases List.mem_append.1 ht with ht | ht
        · obtain ⟨a', h⟩ := ih₁ ht
          exact ⟨_, .left h second pos⟩
        · obtain ⟨b', h⟩ := ih₂ ht
          exact ⟨_, .right first h pos⟩
  | ifThenElse e thenActor elseActor pos ih₁ ih₂ =>
      rcases List.mem_cons.1 ht with rfl | ht
      · exact Actor.trims_of_finding hd
      · rcases List.mem_append.1 ht with ht | ht
        · obtain ⟨e', h⟩ := Expr.exists_trims hd hrule ht
          exact ⟨_, .condition h thenActor elseActor pos⟩
        · rcases List.mem_append.1 ht with ht | ht
          · obtain ⟨a', h⟩ := ih₁ ht
            exact ⟨_, .thenActor e h elseActor pos⟩
          · obtain ⟨b', h⟩ := ih₂ ht
            exact ⟨_, .elseActor e thenActor h pos⟩
  | _ =>
      obtain rfl := List.mem_singleton.1 ht
      exact Actor.trims_of_finding hd

theorem Statement.exists_trims {st : Statement P} (ht : t ∈ st.terms) :
    ∃ st', st.Trims d.pos st' := by
  cases st with
  | assign target value =>
      cases value with
      | expression e =>
          obtain ⟨e', h⟩ := Expr.exists_trims hd hrule ht
          exact ⟨_, .expression target h⟩
      | actor a =>
          obtain ⟨a', h⟩ := Actor.exists_trims hd hrule ht
          exact ⟨_, .actor target h⟩
      | _ => cases ht
  | print actor pos =>
      obtain ⟨a', h⟩ := Actor.exists_trims hd hrule ht
      exact ⟨_, .print h pos⟩
  | execute actor inputs pos =>
      obtain ⟨a', h⟩ := Actor.exists_trims hd hrule ht
      exact ⟨_, .execute h inputs pos⟩
  | ret => cases ht

theorem Block.exists_trims {b : Block P} (ht : t ∈ b.statements.flatMap Statement.terms) :
    ∃ c, b.Trims d.pos c := by
  obtain ⟨st, hst, ht⟩ := List.mem_flatMap.1 ht
  obtain ⟨us, vs, hb⟩ := List.append_of_mem hst
  obtain ⟨st', h⟩ := Statement.exists_trims hd hrule ht
  exact ⟨_, us ++ st' :: vs, ⟨us, st, st', vs, h, hb, rfl⟩, rfl⟩

/-- For each report of redundant parentheses there is a pair that can be left out. -/
theorem Program.exists_trims {p : Program P} (ht : t ∈ p.terms) : ∃ q, p.Trims d.pos q := by
  simp only [Program.terms, Program.statements, List.flatMap_append, List.flatMap_assoc] at ht
  rcases List.mem_append.1 ht with ht | ht
  · obtain ⟨f, hf, ht⟩ := List.mem_flatMap.1 ht
    obtain ⟨us, vs, hfs⟩ := List.append_of_mem hf
    obtain ⟨body, h⟩ := Block.exists_trims hd hrule ht
    exact ⟨_, .inl ⟨_, ⟨us, f, { f with body := body }, vs, ⟨body, h, rfl⟩, hfs, rfl⟩, rfl⟩⟩
  · obtain ⟨body, h⟩ := Block.exists_trims hd hrule ht
    exact ⟨_, .inr ⟨body, h, rfl⟩⟩

end Findings

/-! ## Rows without a pair -/

/-- A row loses an opening parenthesis at `pos` and the parenthesis that closes it. -/
def Leaf.Drops (pos : P) (ls ms : List (Leaf P)) : Prop :=
  ∃ us vs ws, Even vs ∧ ls = us ++ key .lparen pos :: (vs ++ mark .rparen :: ws) ∧
    ms = us ++ (vs ++ ws)

namespace Leaf.Drops

variable {ls ms : List (Leaf P)}

theorem whole (h : Even ls) : Drops pos (key .lparen pos :: (ls ++ [mark .rparen])) ls :=
  ⟨[], ls, [], h, rfl, by simp⟩

theorem before (ks : List (Leaf P)) (h : Drops pos ls ms) : Drops pos (ks ++ ls) (ks ++ ms) := by
  obtain ⟨us, vs, ws, heven, rfl, rfl⟩ := h
  exact ⟨ks ++ us, vs, ws, heven, by simp, by simp⟩

theorem behind (h : Drops pos ls ms) (ks : List (Leaf P)) : Drops pos (ls ++ ks) (ms ++ ks) := by
  obtain ⟨us, vs, ws, heven, rfl, rfl⟩ := h
  exact ⟨us, vs, ws ++ ks, heven, by simp, by simp⟩

theorem cons (h : Drops pos ls ms) (l : Leaf P) : Drops pos (l :: ls) (l :: ms) :=
  h.before [l]

theorem group (h : Drops pos ls ms) (l r : Leaf P) :
    Drops pos (l :: (ls ++ [r])) (l :: (ms ++ [r])) :=
  (h.behind [r]).cons l

/-- The first token of a row is at a place of its own if it is no parenthesis. -/
theorem pin {place : P} (h : Drops pos ls ms) (hhead : ∀ l ∈ ls.head?, l.kind ≠ .lparen) :
    Drops pos (pin place ls) (pin place ms) := by
  obtain ⟨us, vs, ws, heven, rfl, rfl⟩ := h
  cases us with
  | nil => exact absurd rfl (hhead _ rfl)
  | cons u us => exact ⟨_ :: us, vs, ws, heven, rfl, rfl⟩

end Leaf.Drops

namespace Expr.Trims

variable {e e' : Expr P}

theorem drops (h : e.Trims pos e') : Drops pos e.leaves e'.leaves := by
  induction h with
  | name id => exact .whole (Expr.named id).even_leaves
  | double inner pos' => exact .whole (Expr.parens inner pos').even_leaves
  | not _ pos' ih => exact ih.cons _
  | parens _ pos' ih => exact ih.group _ _
  | left _ op opPos right ih => exact ih.behind _
  | right left op opPos _ ih => exact (ih.cons _).before _

theorem isBinary_eq (h : e.Trims pos e') : e'.isBinary = e.isBinary := by
  cases h <;> rfl

theorem isNot_eq (h : e.Trims pos e') : e'.isNot = e.isNot := by
  cases h <;> rfl

theorem endsInNot_eq (h : e.Trims pos e') : e'.endsInNot = e.endsInNot := by
  cases h with
  | right left op opPos h => exact h.isNot_eq
  | _ => rfl

/-- Leaving out a pair makes no operand need parentheses, since what was inside is a name or a pair.
-/
theorem normal (h : e.Trims pos e') (hn : e.Normal) : e'.Normal := by
  induction h with
  | name id => trivial
  | double inner pos' => exact hn
  | not _ pos' ih | parens _ pos' ih => exact ih hn
  | left h op opPos right ih =>
      obtain ⟨hl, hr, hends, hbinary⟩ := hn
      exact ⟨ih hl, hr, h.endsInNot_eq.trans hends, hbinary⟩
  | right left op opPos h ih =>
      obtain ⟨hl, hr, hends, hbinary⟩ := hn
      exact ⟨hl, ih hr, hends, h.isBinary_eq.trans hbinary⟩

/-- Leaving out a pair nests nothing deeper. -/
theorem depth_le (h : e.Trims pos e') : e'.depth ≤ e.depth := by
  induction h with
  | name id => simp [depth]
  | double inner pos' => simp [depth]
  | not _ pos' ih | parens _ pos' ih => exact Nat.succ_le_succ ih
  | left _ op opPos right ih | right left op opPos _ ih =>
      simp only [depth]
      omega

end Expr.Trims

namespace Actor.Trims

variable {a a' : Actor P}

theorem isName_eq (h : a.Trims pos a') : a'.isName = a.isName := by
  induction h with
  | parens _ pos' ih => exact ih
  | _ => rfl

/-- An actor without a pair is spelled by the row without that pair. Calls around a name stay, so
that an actor that is only a name is not read as an expression afterwards. -/
theorem spelling (h : a.Trims pos a') {n : Nat} {ls : List (Leaf P)} (hs : a.Spelling n ls) :
    ∃ ms, a'.Spelling n ms ∧ Drops pos ls ms ∧
      (a'.isName = true → ms = a'.leaves .plain → ls = a.leaves .plain) := by
  have hcompound : ∀ {q : Prop}, false = true → q := fun h => absurd h Bool.false_ne_true
  induction hs generalizing a' with
  | flat hflat => cases h <;> exact hflat.elim
  | @wrapped n a ls _ ih =>
      obtain ⟨ms, hms, hdrops, -⟩ := ih h
      refine ⟨_, .wrapped hms, hdrops.group _ _, fun hname hplain => ?_⟩
      have hkind := Actor.kind_of_isName hname hplain.symm
      simp at hkind
  | identity _ pos' ih =>
      cases h with
      | identity h =>
          obtain ⟨ms, hms, hdrops, -⟩ := ih h
          exact ⟨_, .identity hms pos', (hdrops.group _ _).cons _, hcompound⟩
  | @sequence n a b ls ms ha hb pos' iha ihb =>
      cases h with
      | first h =>
          obtain ⟨ks, hks, hdrops, -⟩ := iha h
          exact ⟨_, .sequence hks hb pos', ((hdrops.behind _).cons _).cons _, hcompound⟩
      | second _ h =>
          obtain ⟨ks, hks, hdrops, -⟩ := ihb h
          exact ⟨_, .sequence ha hks pos', (((hdrops.group _ _).before _).cons _).cons _, hcompound⟩
  | @parallel n a b ls ms ha hb pos' iha ihb =>
      cases h with
      | left h =>
          obtain ⟨ks, hks, hdrops, -⟩ := iha h
          exact ⟨_, .parallel hks hb pos', ((hdrops.behind _).cons _).cons _, hcompound⟩
      | right _ h =>
          obtain ⟨ks, hks, hdrops, -⟩ := ihb h
          exact ⟨_, .parallel ha hks pos', (((hdrops.group _ _).before _).cons _).cons _, hcompound⟩
  | @ifThenElse n e a b ls ms he hd ha hb pos' iha ihb =>
      cases h with
      | condition h =>
          exact ⟨_, .ifThenElse (h.normal he) (h.depth_le.trans hd) ha hb pos',
            ((h.drops.behind _).cons _).cons _, hcompound⟩
      | thenActor _ h =>
          obtain ⟨ks, hks, hdrops, -⟩ := iha h
          exact ⟨_, .ifThenElse he hd hks hb pos',
            ((((hdrops.behind _).cons _).before _).cons _).cons _, hcompound⟩
      | elseActor _ _ h =>
          obtain ⟨ks, hks, hdrops, -⟩ := ihb h
          exact ⟨_, .ifThenElse he hd ha hks pos',
            (((((hdrops.group _ _).before _).cons _).before _).cons _).cons _, hcompound⟩
  | iterate watched _ pos' ih =>
      cases h with
      | iterate _ h =>
          obtain ⟨ms, hms, hdrops, -⟩ := ih h
          exact ⟨_, .iterate watched hms pos', (((hdrops.group _ _).before _).cons _).cons _,
            hcompound⟩
  | @parens n a ls hs pos' ih =>
      cases h with
      | name | double =>
          refine ⟨ls, hs.mono (Nat.le_succ n), .whole hs.even, fun _ hplain => ?_⟩
          rw [hplain]
          rfl
      | parens h =>
          obtain ⟨ms, hms, hdrops, hplain⟩ := ih h
          refine ⟨_, .parens hms pos', hdrops.group _ _, fun hname heq => ?_⟩
          have hinner := List.append_cancel_right (List.cons.inj heq).2
          rw [hplain hname hinner]
          rfl

end Actor.Trims

/-! ## Statements and programs -/

theorem Leaf.Concat.change (pos : P) {R : α → List (Leaf P) → Prop} {S : α → α → Prop}
    {as bs : List α} {ls : List (Leaf P)} (h : Concat R as ls) (hS : Changes S as bs)
    (hstep : ∀ a b row, S a b → R a row → ∃ row', R b row' ∧ Drops pos row row') :
    ∃ ms, Concat R bs ms ∧ Drops pos ls ms := by
  obtain ⟨us, a, b, vs, hab, rfl, rfl⟩ := hS
  induction us generalizing ls with
  | nil =>
      obtain ⟨row, rest, hrow, hrest, rfl⟩ := h
      obtain ⟨row', hrow', hdrops⟩ := hstep a b row hab hrow
      exact ⟨_, ⟨row', rest, hrow', hrest, rfl⟩, hdrops.behind rest⟩
  | cons u us ih =>
      obtain ⟨row, rest, hrow, hrest, rfl⟩ := h
      obtain ⟨ms, hms, hdrops⟩ := ih hrest
      exact ⟨_, ⟨row, ms, hrow, hms, rfl⟩, hdrops.before row⟩

variable {limits : Limits}

theorem Statement.Trims.spelling {st st' : Statement P} (h : st.Trims pos st')
    (hl : 2 ≤ limits.lookahead) {ls : List (Leaf P)} (hs : st.Spelling limits ls) :
    ∃ ms, st'.Spelling limits ms ∧ Drops pos ls ms := by
  have hlook : ∀ row : List (Leaf P), limits.lookahead ≤ 1 → lead row ≠ some .ident := by
    intro row hshort
    omega
  cases h with
  | expression target h =>
      obtain ⟨row, ⟨-, hnormal, hdepth, rfl⟩, rfl⟩ := hs
      exact ⟨_, ⟨_, ⟨hlook _, h.normal hnormal, h.depth_le.trans hdepth, rfl⟩, rfl⟩,
        (h.drops.cons _).cons _⟩
  | actor target h =>
      obtain ⟨row, ⟨-, hrow, hwrapped⟩, rfl⟩ := hs
      obtain ⟨ms, hms, hdrops, hplain⟩ := h.spelling hrow
      refine ⟨_, ⟨ms, ⟨hlook ms, hms, fun hname heq => ?_⟩, rfl⟩, (hdrops.cons _).cons _⟩
      exact hwrapped (h.isName_eq.symm.trans hname) (hplain hname heq)
  | print h pos' =>
      obtain ⟨row, hrow, rfl⟩ := hs
      obtain ⟨ms, hms, hdrops, -⟩ := h.spelling hrow
      exact ⟨_, ⟨ms, hms, rfl⟩, hdrops.group _ _⟩
  | execute h inputs pos' =>
      obtain ⟨row, hrow, hinputs, rfl⟩ := hs
      obtain ⟨ms, hms, hdrops, -⟩ := h.spelling hrow
      exact ⟨_, ⟨ms, hms, hinputs, rfl⟩, (hdrops.behind _).cons _⟩

theorem Statement.Trims.line {st st' : Statement P} (h : st.Trims pos st')
    (hl : 2 ≤ limits.lookahead) {ls : List (Leaf P)} (hs : st.Line limits ls) :
    ∃ ms, st'.Line limits ms ∧ Drops pos ls ms := by
  obtain ⟨row, hrow, rfl⟩ := hs
  obtain ⟨ms, hms, hdrops⟩ := h.spelling hl hrow
  exact ⟨_, ⟨ms, hms, rfl⟩, hdrops.behind _⟩

/-- No statement begins with a parenthesis. -/
theorem Statement.head_lines {sts : List (Statement P)} {rows : List (Leaf P)}
    (h : Concat (Statement.Line limits) sts rows) {closer : TokenKind} (hc : closer ≠ .lparen) :
    ∀ l ∈ (rows ++ [mark closer]).head?, l.kind ≠ .lparen := by
  cases sts with
  | nil =>
      obtain rfl : rows = [] := h
      simpa using hc
  | cons st sts =>
      obtain ⟨row, rest, hrow, -, rfl⟩ := h
      obtain ⟨l, row, rfl, hstart⟩ := Parser.starts_line st row hrow
      intro m hm hkind
      obtain rfl : l = m := by simpa using hm
      rw [hkind] at hstart
      cases hstart

theorem Block.Trims.spelling {b c : Block P} (h : b.Trims pos c) (hl : 2 ≤ limits.lookahead)
    {closer : TokenKind} (hc : closer ≠ .lparen) {ls : List (Leaf P)}
    (hs : b.Spelling limits closer ls) :
    ∃ ms, c.Spelling limits closer ms ∧ Drops pos ls ms := by
  obtain ⟨statements, hchange, rfl⟩ := h
  obtain ⟨rows, hrows, rfl⟩ := hs
  obtain ⟨ms, hms, hdrops⟩ := hrows.change pos hchange
    fun _ _ _ hst hrow => Statement.Trims.line hst hl hrow
  exact ⟨_, ⟨ms, hms, rfl⟩, (hdrops.behind _).pin (Statement.head_lines hrows hc)⟩

theorem Function.Trims.spelling {f g : Function P} (h : f.Trims pos g)
    (hl : 2 ≤ limits.lookahead) {ls : List (Leaf P)} (hs : f.Spelling limits ls) :
    ∃ ms, g.Spelling limits ms ∧ Drops pos ls ms := by
  obtain ⟨body, hbody, rfl⟩ := h
  obtain ⟨row, hrow, rfl⟩ := hs
  obtain ⟨ms, hms, hdrops⟩ := hbody.spelling hl (by decide) hrow
  exact ⟨_, ⟨ms, hms, rfl⟩,
    (((((hdrops.cons _).cons _).before _).cons _).cons _).cons _⟩

/-- The shorter tree has a row of its own, which is the old one without the pair. -/
theorem Program.Trims.spelling {p q : Program P} (h : p.Trims pos q) (hl : 2 ≤ limits.lookahead)
    {ls : List (Leaf P)} (hs : p.Spelling limits ls) :
    ∃ ms, q.Spelling limits ms ∧ Drops pos ls ms := by
  obtain ⟨fs, body, hfs, hbody, rfl⟩ := hs
  rcases h with ⟨functions, hchange, rfl⟩ | ⟨block, hblock, rfl⟩
  · obtain ⟨gs, hgs, hdrops⟩ := hfs.change pos hchange
      fun _ _ _ hf hrow => Function.Trims.spelling hf hl hrow
    exact ⟨_, ⟨gs, body, hgs, hbody, rfl⟩, hdrops.behind body⟩
  · obtain ⟨ms, hms, hdrops⟩ := hblock.spelling hl (by decide) hbody
    exact ⟨_, ⟨fs, ms, hfs, hms, rfl⟩, hdrops.before fs⟩

/-! ## Tokens without a pair -/

def Token.Drops (pos : P) (ts us : List (Token P)) : Prop :=
  ∃ ahead opening inside closing rest, ts = ahead ++ opening :: (inside ++ closing :: rest) ∧
    opening.kind = .lparen ∧ opening.pos = pos ∧ closing.kind = .rparen ∧
    Balanced (inside.map Token.kind) ∧ us = ahead ++ (inside ++ rest)

theorem Leaf.Drops.exists_tokens {ls ms : List (Leaf P)} (h : Drops pos ls ms)
    {ts : List (Token P)} (hm : List.Forall₂ Matches ls ts) :
    ∃ us, Token.Drops pos ts us ∧ List.Forall₂ Matches ms us := by
  obtain ⟨ls₁, ls₂, ls₃, heven, rfl, rfl⟩ := h
  obtain ⟨ahead, _, hahead, hbehind, rfl⟩ := matches_append.1 hm
  obtain ⟨opening, _, hopening, hopened, rfl⟩ := List.forall₂_cons_left_iff.1 hbehind
  obtain ⟨inside, _, hinside, hclosed, rfl⟩ := matches_append.1 hopened
  obtain ⟨closing, rest, hclosing, hrest, rfl⟩ := List.forall₂_cons_left_iff.1 hclosed
  obtain ⟨hkind, hpos⟩ := matches_key.1 hopening
  refine ⟨ahead ++ (inside ++ rest), ⟨ahead, opening, inside, closing, rest, rfl, hkind, hpos,
    matches_mark.1 hclosing, ?_, rfl⟩, List.rel_append hahead (List.rel_append hinside hrest)⟩
  rw [← map_kind_of_matches hinside]
  exact heven

theorem Token.Drops.terminated {ts us : List (Token P)} (h : Token.Drops pos ts us)
    (ht : Terminated ts) : Terminated us := by
  obtain ⟨ahead, opening, inside, closing, rest, rfl, -, -, hclosing, -, rfl⟩ := h
  obtain ⟨body, last, heq, hlast, hbody⟩ := ht
  rcases List.eq_nil_or_concat rest with rfl | ⟨rest, t, rfl⟩
  · have hend : (ahead ++ opening :: inside) ++ [closing] = body ++ [last] := by simpa using heq
    obtain ⟨-, hcl⟩ := List.append_inj' hend rfl
    obtain rfl : closing = last := by simpa using hcl
    rw [hclosing] at hlast
    cases hlast
  · have hend : (ahead ++ opening :: (inside ++ closing :: rest)) ++ [t] = body ++ [last] := by
      simpa using heq
    obtain ⟨rfl, hlast'⟩ := List.append_inj' hend rfl
    obtain rfl : t = last := by simpa using hlast'
    refine ⟨ahead ++ (inside ++ rest), t, by simp, hlast, fun u hu => hbody u ?_⟩
    simp only [List.mem_append, List.mem_cons] at hu ⊢
    tauto

/-- Tokens at different places lose a pair in one way only. -/
theorem Token.Drops.unique {ts us vs : List (Token P)} (h : Token.Drops pos ts us)
    (h' : Token.Drops pos ts vs) (hplaces : (ts.map Token.pos).Nodup) : us = vs := by
  obtain ⟨ahead, opening, inside, closing, rest, hts, -, hpos, hclosing, hinside, rfl⟩ := h
  obtain ⟨ahead', opening', inside', closing', rest', hts', -, hpos', hclosing', hinside', rfl⟩ :=
    h'
  obtain rfl : opening = opening' := by
    refine List.inj_on_of_nodup_map hplaces ?_ ?_ (hpos.trans hpos'.symm)
    · simp [hts]
    · simp [hts']
  have hnodup : (ahead ++ opening :: (inside ++ closing :: rest)).Nodup := by
    rw [← hts]
    exact hplaces.of_map _
  obtain ⟨hopening, -⟩ := List.nodup_cons.1 (List.nodup_middle.1 hnodup)
  rw [List.mem_append, not_or] at hopening
  rw [hts, List.append_cons_inj_of_notMem hopening.1 hopening.2] at hts'
  obtain ⟨rfl, -, hbehind⟩ := hts'
  have hcloses : ∀ {t : Token P}, t.kind = .rparen → t.kind.closes = true := by
    intro t ht
    rw [ht]
    rfl
  have hkinds : inside.map Token.kind = inside'.map Token.kind :=
    hinside.closer_unique (hcloses hclosing) (hcloses hclosing') hinside'
      (by simpa using congrArg (List.map Token.kind) hbehind)
  have hlength : inside.length = inside'.length := by simpa using congrArg List.length hkinds
  obtain ⟨rfl, hend⟩ := List.append_inj hbehind hlength
  rw [(List.cons.inj hend).2]

/-- Parentheses that are reported as redundant can be left out. The tokens of the source without the
reported parenthesis and the one that closes it are read within the same limits, and the result is
the program without that pair of parentheses. -/
theorem Program.findings_removable {limits : Limits} (hl : 2 ≤ limits.lookahead) {source : String}
    {tokens : List (Token Position)} {p : Program Position} (ht : tokenize source = .ok tokens)
    (hp : Program.parse limits source = .ok p) {d : Finding Position} (hd : d ∈ p.findings)
    (hrule : d.rule = .redundantParens) :
    (∃! us, Token.Drops d.pos tokens us) ∧
      ∀ us, Token.Drops d.pos tokens us →
        ∃ q, Program.ofTokens limits us = .ok q ∧ p.Trims d.pos q := by
  obtain ⟨_, ht', hterm, hparse⟩ := Program.exists_tokens_of_parse hp
  obtain rfl := Except.ok.inj (ht.symm.trans ht')
  obtain ⟨t, hterms, hfinding⟩ := List.mem_filterMap.1 (p.findings_perm.mem_iff.1 hd)
  obtain ⟨q, htrims⟩ := Program.exists_trims hfinding hrule hterms
  obtain ⟨ls, hspelling, hmatch⟩ := (Program.ofTokens_eq_ok hterm).1 hparse
  obtain ⟨ms, hms, hdrops⟩ := htrims.spelling hl hspelling
  obtain ⟨us, hus, hmatch'⟩ := hdrops.exists_tokens hmatch
  have hplaces : (tokens.map Token.pos).Nodup :=
    List.pairwise_map.2 ((offset_pairwise_of_tokenize ht).imp fun hlt heq =>
      Nat.ne_of_lt hlt (congrArg Position.offset heq))
  have hunique : ∀ vs, Token.Drops d.pos tokens vs → vs = us := fun vs hvs =>
    hvs.unique hus hplaces
  refine ⟨⟨us, hus, hunique⟩, fun vs hvs => ⟨q, ?_, htrims⟩⟩
  rw [hunique vs hvs]
  exact (Program.ofTokens_eq_ok (hus.terminated hterm)).2 ⟨ms, hms, hmatch'⟩

/-- The program `x = (ActorFactory.create((a)));`, in which a call stands between the pairs. -/
def Program.wrapperSample : Program Position where
  functions := []
  body := ⟨[.assign ⟨"x", ⟨1, 1, 0⟩⟩ (.actor (.parens (.parens (.named ⟨"a", ⟨1, 27, 26⟩⟩)
    ⟨1, 26, 25⟩) ⟨1, 5, 4⟩))], ⟨1, 1, 0⟩⟩

theorem Program.findings_removable_wrapperSample :
    Program.parse {} "x = (ActorFactory.create((a)));" = .ok Program.wrapperSample ∧
      ⟨.redundantParens, "redundant parentheses around a parenthesized actor", ⟨1, 5, 4⟩⟩ ∈
        Program.wrapperSample.findings ∧
      ∃ tokens us q, tokenize "x = (ActorFactory.create((a)));" = .ok tokens ∧
        Token.Drops ⟨1, 5, 4⟩ tokens us ∧ Program.ofTokens {} us = .ok q ∧
        Program.wrapperSample.Trims ⟨1, 5, 4⟩ q := by
  have hp : Program.parse {} "x = (ActorFactory.create((a)));" = .ok Program.wrapperSample := by
    decide +kernel
  have hd : ⟨.redundantParens, "redundant parentheses around a parenthesized actor", ⟨1, 5, 4⟩⟩ ∈
      Program.wrapperSample.findings :=
    Program.wrapperSample.findings_perm.mem_iff.2 List.mem_cons_self
  obtain ⟨tokens, ht, -⟩ := Program.exists_tokens_of_parse hp
  obtain ⟨⟨us, hus, -⟩, hread⟩ := Program.findings_removable (by decide) ht hp hd rfl
  obtain ⟨q, hq, htrims⟩ := hread us hus
  exact ⟨hp, hd, tokens, us, q, ht, hus, hq, htrims⟩

end ActorLang
