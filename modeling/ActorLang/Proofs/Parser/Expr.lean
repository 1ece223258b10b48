import ActorLang.Parser.Expr
import ActorLang.Proofs.Parser.Artifact

/-!
# Expressions are read exactly

An expression is normal when its operators group to the left as far as they can: no right operand
is an operator, and no left operand ends in a negation, which would take the operator along. The
expression parser succeeds if and only if the stream yields the leaves of a normal expression that
the room for nesting admits, and no operator follows that it would have to take.
-/

namespace ActorLang

variable {P : Type}

namespace Expr

/-- No operand needs parentheses, and no list of verdicts is empty. -/
def Normal : Expr P → Prop
  | not operand _ => operand.Normal
  | elementOf _ verdicts _ => verdicts ≠ []
  | parens inner _ => inner.Normal
  | binary left _ _ right =>
    left.Normal ∧ right.Normal ∧ left.endsInNot = false ∧ right.isBinary = false
  | instanceOf .. | named _ => True

/-- The number of expressions nested in each other. A chain of operators is one level, and each
right operand in it is one more. -/
def depth : Expr P → Nat
  | not operand _ => operand.depth + 1
  | parens inner _ => inner.depth + 1
  | binary left _ _ right => max left.depth (right.depth + 1)
  | instanceOf .. | elementOf .. | named _ => 1

/-- A stream yields an expression that fits a tier and the room for nesting, and what follows does
not continue it. -/
structure Read (room : Nat) (tier : Tier) (s : TokenStream P) (e : Expr P)
    (s' : TokenStream P) : Prop where
  normal : e.Normal
  depth_le : e.depth ≤ room
  fits : tier = .operand → e.isBinary = false
  yields : s.Yields e.leaves s'
  ends : tier = .chain ∨ e.endsInNot = true → s'.current.kind ≠ .binOp

/-- Every expression is a level of its own. -/
theorem one_le_depth (e : Expr P) : 1 ≤ e.depth := by
  induction e with
  | binary left op opPos right ihl ihr => exact Nat.le_trans ihl (Nat.le_max_left ..)
  | not operand pos ih => exact Nat.le_add_left ..
  | parens inner pos ih => exact Nat.le_add_left ..
  | instanceOf | elementOf | named => exact Nat.le_refl _

theorem endsInNot_eq_isNot {e : Expr P} (h : e.isBinary = false) : e.endsInNot = e.isNot := by
  cases e with
  | binary => simp [isBinary] at h
  | _ => rfl

end Expr

theorem BinOp.ofText?_eq_some {x : String} {op : BinOp} : ofText? x = some op ↔ x = op.text := by
  constructor
  · intro h
    unfold ofText? at h
    split at h <;> cases h <;> rfl
  · rintro rfl
    exact ofText?_text op

theorem Verdict.ofText?_eq_some {x : String} {v : Verdict} :
    ofText? x = some v ↔ x = v.text := by
  constructor
  · intro h
    unfold ofText? at h
    split at h <;> cases h <;> rfl
  · rintro rfl
    exact ofText?_text v

namespace Parser

open TokenStream Leaf

theorem operator_eq_ok {t : Token P} {s s' : TokenStream P} {op : BinOp} :
    operator t s = .ok (op, s') ↔ t.text = op.text ∧ s = s' := by
  rw [← BinOp.ofText?_eq_some]
  cases h : BinOp.ofText? t.text <;> simp [operator, h]

theorem verdict_eq_ok {s s' : TokenStream P} {v : Verdict} :
    verdict s = .ok (v, s') ↔ s.Gives v.leaf s' := by
  constructor
  · intro h
    obtain ⟨s₁, t, ht, h⟩ := expectOr_bind_eq_ok (by decide) h
    have hv : t.text = v.text ∧ s₁ = s' := by
      rw [← Verdict.ofText?_eq_some]
      cases hv : Verdict.ofText? t.text <;> simp_all
    obtain ⟨hx, rfl⟩ := hv
    refine ht.of_matches fun u hu => ?_
    rw [matches_word.1 hu]
    exact ⟨rfl, by simp [Verdict.leaf, hx], by simp [Verdict.leaf]⟩
  · rintro ⟨t, rest, ha, ht, hs⟩
    have hk : t.kind = .verdict := ht.kind
    have hx : t.text = v.text := ht.text _ rfl
    have hg : s.Gives (.word .verdict t.text t.pos) s' :=
      ⟨t, rest, ha, matches_word.2 (by rw [← hk]), hs⟩
    refine (bind_of_eq_ok ((expect_eq_ok (t := t) (by decide)).2 ⟨hk, hg⟩)).trans ?_
    simp [hx, Verdict.ofText?_text]

theorem verdicts_eq_ok {s s' : TokenStream P} {vs : List Verdict} :
    verdicts s = .ok (vs, s') ↔
      vs ≠ [] ∧ s.Yields (commaRow (fun v => [v.leaf]) vs) s' ∧ s'.current.kind ≠ .comma := by
  have h : commaSeparated verdict s = .ok (vs, s') ↔
      vs ≠ [] ∧ s.Yields (commaRow (fun v => [v.leaf]) vs) s' ∧ ListEnds (fun _ _ => True) vs s' :=
    commaSeparated_eq_ok (by simp [verdict_eq_ok]) (by simp)
  simpa [verdicts, ListEnds] using h

section Nested

variable {expr : Tier → Parser P (Expr P)} {room : Nat}
  (hexpr : ∀ tier s e s', expr tier s = .ok (e, s') ↔ Expr.Read room tier s e s')

include hexpr

theorem read_of_exprHead {s s' : TokenStream P} {e : Expr P}
    (h : exprHead expr s = .ok (e, s')) : Expr.Read (room + 1) .operand s e s' := by
  simp only [Stepwise.exprHead, peek_bind] at h
  generalize hk : s.current.kind = k at h
  split at h
  case h_1 =>
    obtain ⟨s₁, t, ht, h⟩ := take_bind_eq_ok hk (by decide) h
    obtain ⟨s₂, operand, ho, he⟩ := bind_eq_ok.1 h
    obtain ⟨rfl, rfl⟩ : Expr.not operand t.pos = e ∧ s₂ = s' := by simpa using he
    have hr := (hexpr _ _ _ _).1 ho
    exact ⟨hr.normal, Nat.succ_le_succ hr.depth_le, fun _ => rfl, .cons ht.key hr.yields,
      fun _ => hr.ends (.inl rfl)⟩
  case h_2 =>
    obtain ⟨s₁, t, ht, h⟩ := take_bind_eq_ok hk (by decide) h
    obtain ⟨s₂, t₂, ht₂, h⟩ := expectOr_bind_eq_ok (by decide) h
    obtain ⟨s₃, subject, hs, h⟩ := bind_eq_ok.1 h
    obtain ⟨s₄, t₄, ht₄, h⟩ := expectOr_bind_eq_ok (by decide) h
    obtain ⟨s₅, type, hty, h⟩ := bind_eq_ok.1 h
    obtain ⟨s₆, t₆, ht₆, he⟩ := expectOr_bind_eq_ok (by decide) h
    obtain ⟨rfl, rfl⟩ : Expr.instanceOf subject type t.pos = e ∧ s₆ = s' := by simpa using he
    refine ⟨trivial, Nat.le_add_left .., fun _ => rfl, ?_, by simp [Expr.endsInNot]⟩
    exact .cons ht.key (.cons ht₂.mark (.cons (ident_eq_ok.1 hs) (.cons ht₄.mark
      (.cons (typeName_eq_ok.1 hty) (yields_singleton.2 ht₆.mark)))))
  case h_3 =>
    obtain ⟨s₁, t, ht, h⟩ := take_bind_eq_ok hk (by decide) h
    obtain ⟨s₂, t₂, ht₂, h⟩ := expectOr_bind_eq_ok (by decide) h
    obtain ⟨s₃, subject, hs, h⟩ := bind_eq_ok.1 h
    obtain ⟨s₄, t₄, ht₄, h⟩ := expectOr_bind_eq_ok (by decide) h
    obtain ⟨s₅, t₅, ht₅, h⟩ := expectOr_bind_eq_ok (by decide) h
    obtain ⟨s₆, vs, hvs, h⟩ := bind_eq_ok.1 h
    obtain ⟨s₇, t₇, ht₇, h⟩ := expectOr_bind_eq_ok (by decide) h
    obtain ⟨s₈, t₈, ht₈, he⟩ := expectOr_bind_eq_ok (by decide) h
    obtain ⟨rfl, rfl⟩ : Expr.elementOf subject vs t.pos = e ∧ s₈ = s' := by simpa using he
    obtain ⟨hne, hy, -⟩ := verdicts_eq_ok.1 hvs
    refine ⟨hne, Nat.le_add_left .., fun _ => rfl, ?_, by simp [Expr.endsInNot]⟩
    exact .cons ht.key (.cons ht₂.mark (.cons (ident_eq_ok.1 hs) (.cons ht₄.mark
      (.cons ht₅.mark (hy.append (.cons ht₇.mark (yields_singleton.2 ht₈.mark)))))))
  case h_4 =>
    obtain ⟨id, hid, rfl⟩ : ∃ id, s.Gives id.leaf s' ∧ .named id = e := by
      simpa [map_eq_ok, ident_eq_ok] using h
    exact ⟨trivial, Nat.le_add_left .., fun _ => rfl, yields_singleton.2 hid,
      by simp [Expr.endsInNot]⟩
  case h_5 =>
    obtain ⟨s₁, t, ht, h⟩ := take_bind_eq_ok hk (by decide) h
    obtain ⟨s₂, inner, hi, h⟩ := bind_eq_ok.1 h
    obtain ⟨s₃, t₃, ht₃, he⟩ := expectOr_bind_eq_ok (by decide) h
    obtain ⟨rfl, rfl⟩ : Expr.parens inner t.pos = e ∧ s₃ = s' := by simpa using he
    have hr := (hexpr _ _ _ _).1 hi
    exact ⟨hr.normal, Nat.succ_le_succ hr.depth_le, fun _ => rfl,
      .cons ht.key (hr.yields.append (yields_singleton.2 ht₃.mark)), by simp [Expr.endsInNot]⟩
  case h_6 => simp at h

theorem exprHead_of_read {s s' : TokenStream P} {e : Expr P}
    (h : Expr.Read (room + 1) .operand s e s') : exprHead expr s = .ok (e, s') := by
  obtain ⟨hn, hd, hf, hy, hends⟩ := h
  simp only [Stepwise.exprHead, peek_bind]
  cases e with
  | not operand pos =>
      obtain ⟨s₁, hg, hy⟩ := hy
      simp only [hg.current_kind, key_kind]
      obtain ⟨x, hx⟩ := take_of_key hg (by decide)
      have hr : Expr.Read room .chain s₁ operand s' :=
        ⟨hn, Nat.le_of_succ_le_succ hd, by simp, hy, fun _ => hends (.inr rfl)⟩
      exact (bind_of_eq_ok hx).trans (bind_of_eq_ok ((hexpr _ _ _ _).2 hr))
  | instanceOf subject type pos =>
      obtain ⟨s₁, hg, s₂, h₂, s₃, h₃, s₄, h₄, s₅, h₅, h₆⟩ := hy
      simp only [hg.current_kind, key_kind]
      obtain ⟨x, hx⟩ := take_of_key hg (by decide)
      rw [bind_of_eq_ok hx, expect_bind_of_mark h₂ (by decide), bind_of_eq_ok (ident_eq_ok.2 h₃),
        expect_bind_of_mark h₄ (by decide), bind_of_eq_ok (typeName_eq_ok.2 h₅),
        expect_bind_of_mark (yields_singleton.1 h₆) (by decide)]
      rfl
  | elementOf subject verdicts pos =>
      obtain ⟨s₁, hg, s₂, h₂, s₃, h₃, s₄, h₄, s₅, h₅, hy⟩ := hy
      obtain ⟨s₆, hvs, s₇, h₇, h₈⟩ := yields_append.1 hy
      simp only [hg.current_kind, key_kind]
      obtain ⟨x, hx⟩ := take_of_key hg (by decide)
      have hv := verdicts_eq_ok.2 ⟨hn, hvs, by simp [h₇.current_kind]⟩
      rw [bind_of_eq_ok hx, expect_bind_of_mark h₂ (by decide), bind_of_eq_ok (ident_eq_ok.2 h₃),
        expect_bind_of_mark h₄ (by decide), expect_bind_of_mark h₅ (by decide), bind_of_eq_ok hv,
        expectOr_bind_of_mark h₇ (by decide),
        expect_bind_of_mark (yields_singleton.1 h₈) (by decide)]
      rfl
  | named id =>
      have hg := yields_singleton.1 hy
      simp only [hg.current_kind, Ident.leaf_kind]
      exact bind_of_eq_ok (ident_eq_ok.2 hg)
  | parens inner pos =>
      obtain ⟨s₁, hg, hy⟩ := hy
      obtain ⟨s₂, hi, hr⟩ := yields_append.1 hy
      have hr := yields_singleton.1 hr
      simp only [hg.current_kind, key_kind]
      obtain ⟨x, hx⟩ := take_of_key hg (by decide)
      have hread : Expr.Read room .chain s₁ inner s₂ :=
        ⟨hn, Nat.le_of_succ_le_succ hd, by simp, hi, fun _ => by simp [hr.current_kind]⟩
      rw [bind_of_eq_ok hx, bind_of_eq_ok ((hexpr _ _ _ _).2 hread),
        expectOr_bind_of_mark hr (by decide)]
      rfl
  | binary left op opPos right => simp [Expr.isBinary] at hf

theorem exprHead_eq_ok {s s' : TokenStream P} {e : Expr P} :
    exprHead expr s = .ok (e, s') ↔ Expr.Read (room + 1) .operand s e s' :=
  ⟨read_of_exprHead hexpr, exprHead_of_read hexpr⟩

/-- The invariant of the operator loop: what was read so far is an expression of its own, and no
operator behind it belongs to a negation at its end. -/
theorem read_of_operatorsAfter {n : Nat} {s s₁ s' : TokenStream P} {left e : Expr P}
    (hn : s₁.ahead.length ≤ n) (hnormal : left.Normal) (hdepth : left.depth ≤ room + 1)
    (hy : s.Yields left.leaves s₁)
    (hends : left.endsInNot = true → s₁.current.kind ≠ .binOp)
    (h : operatorsAfter (expr .operand) n left s₁ = .ok (e, s')) :
    Expr.Read (room + 1) .chain s e s' := by
  induction n generalizing left s₁ with
  | zero =>
      obtain ⟨rfl, rfl⟩ : left = e ∧ s₁ = s' := by simpa [Stepwise.operatorsAfter] using h
      have ha : s₁.ahead = [] := List.length_eq_zero_iff.1 (Nat.le_zero.1 hn)
      have hk : s₁.current.kind ≠ .binOp := by simp [TokenStream.current, ha, s₁.final_kind]
      exact ⟨hnormal, hdepth, by simp, hy, fun _ => hk⟩
  | succ n ih =>
      simp only [Stepwise.operatorsAfter, nextIs_bind, beq_iff_eq] at h
      split at h
      case isFalse hk =>
        obtain ⟨rfl, rfl⟩ : left = e ∧ s₁ = s' := by simpa using h
        exact ⟨hnormal, hdepth, by simp, hy, fun _ => hk⟩
      case isTrue hk =>
        obtain ⟨s₂, t, ht, h⟩ := take_bind_eq_ok hk (by decide) h
        obtain ⟨s₂', op, hop, h⟩ := bind_eq_ok.1 h
        obtain ⟨htext, rfl⟩ := operator_eq_ok.1 hop
        obtain ⟨s₃, right, hright, h⟩ := bind_eq_ok.1 h
        have hr := (hexpr _ _ _ _).1 hright
        have hleft : left.endsInNot = false := by
          cases hl : left.endsInNot with
          | false => rfl
          | true => exact absurd hk (hends hl)
        have hlen : s₃.ahead.length ≤ n := by
          have h₁ := (yields_singleton.2 ht).length_ahead
          have h₂ := hr.yields.length_ahead
          simp at h₁
          omega
        have hnormal' : (Expr.binary left op t.pos right).Normal :=
          ⟨hnormal, hr.normal, hleft, hr.fits rfl⟩
        refine ih hlen hnormal' ?_ ?_ ?_ h
        · exact Nat.max_le.2 ⟨hdepth, Nat.succ_le_succ hr.depth_le⟩
        · exact hy.append (.cons (htext ▸ ht) hr.yields)
        · intro hnot
          apply hr.ends
          rw [Expr.endsInNot_eq_isNot (hr.fits rfl)]
          exact .inr hnot

/-- Reading a head and going round the loop over the rest of an expression amounts to entering the
loop behind the whole expression. -/
theorem operatorsAfter_exprHead {s s' : TokenStream P} {e : Expr P} (hnormal : e.Normal)
    (hdepth : e.depth ≤ room + 1) (hy : s.Yields e.leaves s')
    (hends : e.endsInNot = true → s'.current.kind ≠ .binOp) :
    ∃ h s₁, exprHead expr s = .ok (h, s₁) ∧ ∀ n, s₁.ahead.length ≤ n →
      ∃ m, s'.ahead.length ≤ m ∧
        operatorsAfter (expr .operand) n h s₁ = operatorsAfter (expr .operand) m e s' := by
  induction e generalizing s' with
  | binary left op opPos right ih =>
      obtain ⟨hl, hr, hnot, hbin⟩ := hnormal
      obtain ⟨hdl, hdr⟩ := Nat.max_le.1 hdepth
      obtain ⟨s₂, hyl, s₃, hop, hyr⟩ := yields_append.1 hy
      have hkind : s₂.current.kind = .binOp := hop.current_kind
      obtain ⟨h, s₁, hh, hloop⟩ := ih hl hdl hyl (by simp [hnot])
      refine ⟨h, s₁, hh, fun n hn => ?_⟩
      obtain ⟨m, hm, heq⟩ := hloop n hn
      have hlen := (Yields.cons hop hyr).length_ahead
      simp only [List.length_cons] at hlen
      obtain ⟨m, rfl⟩ : ∃ k, m = k + 1 := ⟨m - 1, by omega⟩
      refine ⟨m, by omega, heq.trans ?_⟩
      have hright : Expr.Read room .operand s₃ right s' := by
        refine ⟨hr, Nat.le_of_succ_le_succ hdr, fun _ => hbin, hyr, ?_⟩
        rw [Expr.endsInNot_eq_isNot hbin]
        simpa [Expr.endsInNot] using hends
      have htake : take s₂ = .ok (⟨.binOp, op.text, opPos⟩, s₃) := by
        rw [take_eq_expect hkind]
        exact (expect_eq_ok (by decide)).2 ⟨rfl, hop⟩
      simp only [Stepwise.operatorsAfter, nextIs_bind, hkind, beq_self_eq_true, if_true]
      rw [bind_of_eq_ok htake, bind_of_eq_ok (operator_eq_ok.2 ⟨rfl, rfl⟩),
        bind_of_eq_ok ((hexpr _ _ _ _).2 hright)]
  | _ =>
      refine ⟨_, s', exprHead_of_read hexpr ?_, fun n hn => ⟨n, hn, rfl⟩⟩
      exact ⟨hnormal, hdepth, fun _ => rfl, hy, by simpa using hends⟩

theorem exprOf_eq_ok {tier : Tier} {s s' : TokenStream P} {e : Expr P} :
    exprOf expr tier s = .ok (e, s') ↔ Expr.Read (room + 1) tier s e s' := by
  cases tier with
  | operand =>
      rw [← exprHead_eq_ok hexpr]
      simp [Stepwise.exprOf]
  | chain =>
      constructor
      · intro h
        obtain ⟨s₁, left, hl, h⟩ := bind_eq_ok.1 h
        have hr := (exprHead_eq_ok hexpr).1 hl
        exact read_of_operatorsAfter hexpr (Nat.le_refl _) hr.normal hr.depth_le hr.yields
          (fun hnot => hr.ends (.inr hnot)) h
      · intro h
        have hk := h.ends (.inl rfl)
        obtain ⟨left, s₁, hl, hloop⟩ :=
          operatorsAfter_exprHead hexpr h.normal h.depth_le h.yields fun _ => hk
        obtain ⟨m, -, heq⟩ := hloop s₁.ahead.length (Nat.le_refl _)
        refine (bind_of_eq_ok hl).trans (heq.trans ?_)
        cases m with
        | zero => rfl
        | succ m =>
            simp only [Stepwise.operatorsAfter, nextIs_bind, beq_iff_eq]
            rw [if_neg hk]
            rfl

end Nested

/-- An expression is read if and only if the stream yields a normal tree that fits. The induction is
on the room. -/
theorem exprAt_eq_ok {limit room : Nat} {tier : Tier} {s s' : TokenStream P} {e : Expr P} :
    exprAt limit room tier s = .ok (e, s') ↔ Expr.Read room tier s e s' := by
  induction room generalizing tier s e s' with
  | zero =>
      simp only [Stepwise.exprAt, tooDeep, fail_ne_ok, false_iff]
      intro h
      exact absurd h.depth_le (Nat.not_le.2 e.one_le_depth)
  | succ room ih => exact exprOf_eq_ok fun tier s e s' => ih

end Parser

end ActorLang
