import ActorLang.Proofs.Parser.Backtracking

/-!
# Counting parentheses without a limit

The parentheses in front of an assigned value are counted before its form is chosen, and no further
than there is room for levels of nesting. Counting all of them would make no difference. Each one is
a level for the expression and for the actor behind them, so that both are refused where the count
is, for the same reason and at the same token.
-/

namespace ActorLang

variable {P : Type}

namespace Parser

open TokenStream

def parenCount (ts : List (Token P)) : Nat :=
  (ts.takeWhile fun t => t.kind == .lparen).length

/-- An assigned value whose form is chosen behind all parentheses, even those without room. -/
def unboundedAssignable (limits : Limits) (room : Nat) : Parser P (Assignable P) := do
  let s ← get
  let form ← formBehind limits s (parenCount s.ahead)
  assignableAs (expr limits.depth room) (actor limits.depth room) form

/-! ## Runs that are too long -/

theorem parens_parenCount (s : TokenStream P) : s.Parens (parenCount s.ahead) := by
  induction hn : s.ahead.length generalizing s with
  | zero =>
      have ha : s.ahead = [] := List.length_eq_zero_iff.1 hn
      refine ⟨by simp [parenCount, ha], ?_⟩
      simp [parenCount, kindAt, ha, s.final_kind]
  | succ n ih =>
      obtain ⟨t, rest, ha⟩ := List.exists_cons_of_length_eq_add_one hn
      by_cases ht : t.kind = .lparen
      · have hs : s.current.kind = .lparen := by simpa [current, ha] using ht
        have hrest : s.next.2.ahead = rest := by rw [ahead_next, ha, List.tail_cons]
        have hcount : parenCount s.ahead = parenCount s.next.2.ahead + 1 := by
          simp [parenCount, ha, hrest, ht]
        rw [hcount, parens_succ hs]
        apply ih
        rw [hrest]
        simpa [ha] using hn
      · have hcount : parenCount s.ahead = 0 := by simp [parenCount, ha, ht]
        rw [hcount]
        refine ⟨by simp, ?_⟩
        simpa [kindAt, ha] using ht

section TooLong

variable {limit room m : Nat} {s : TokenStream P} {t : Token P}

theorem parens_next (h : s.Parens m) (hm : room + 1 < m) (ht : s.ahead[room + 1]? = some t) :
    s.current.kind = .lparen ∧ s.next.2.Parens (m - 1) ∧ s.next.2.ahead[room]? = some t := by
  obtain ⟨m, rfl⟩ : ∃ n, m = n + 1 := ⟨m - 1, by omega⟩
  have hs : s.current.kind = .lparen := h.parens 0 (Nat.succ_pos m)
  refine ⟨hs, (parens_succ hs).1 h, ?_⟩
  rw [ahead_next, List.getElem?_tail]
  exact ht

theorem take_bind {α : Type} (f : Token P → Parser P α) (s : TokenStream P) :
    (take >>= f) s = f s.next.1 s.next.2 := rfl

theorem tooDeep_eq {α : Type} (ht : s.ahead[0]? = some t) :
    (tooDeep limit : Parser P α) s = .error ⟨.nesting limit, t.pos⟩ := by
  have hcurrent : s.current = t := by
    rw [current, List.headD_eq_head?_getD, List.head?_eq_getElem?, ht, Option.getD_some]
  rw [← hcurrent]
  rfl

/-- Every parenthesis of the run is a level of the expression behind it. -/
theorem exprAt_of_parens (h : s.Parens m) (hm : room < m) (ht : s.ahead[room]? = some t)
    (tier : Tier) : exprAt limit room tier s = .error ⟨.nesting limit, t.pos⟩ := by
  induction room generalizing m s tier with
  | zero => exact tooDeep_eq ht
  | succ room ih =>
      obtain ⟨hs, hnext, htnext⟩ := parens_next h hm ht
      have hinner := ih hnext (by omega) htnext .chain
      have hhead : exprHead (exprAt limit room) s = .error ⟨.nesting limit, t.pos⟩ := by
        simp only [Stepwise.exprHead, peek_bind, hs]
        rw [take_bind]
        exact bind_of_eq_error hinner
      exact bind_of_eq_error hhead

/-- Every parenthesis of the run is a level of the actor behind it. -/
theorem actor_of_parens (h : s.Parens m) (hm : room < m) (ht : s.ahead[room]? = some t) :
    actor limit room s = .error ⟨.nesting limit, t.pos⟩ := by
  induction room generalizing m s with
  | zero => exact tooDeep_eq ht
  | succ room ih =>
      obtain ⟨hs, hnext, htnext⟩ := parens_next h hm ht
      have hinner := ih hnext (by omega) htnext
      change actorOf (actor limit room) (expr limit room) s = _
      simp only [Stepwise.actorOf, peek_bind, hs]
      rw [take_bind]
      exact bind_of_eq_error hinner

end TooLong

/-- Behind at least one parenthesis the choice is between an expression and an actor. -/
theorem formBehind_of_parens {limits : Limits} (hlook : 2 ≤ limits.lookahead) {m : Nat}
    (hm : 0 < m) (s : TokenStream P) :
    formBehind limits s m s = .ok (.expression, s) ∨ formBehind limits s m s = .ok (.actor, s) := by
  have hfar : ¬ limits.lookahead ≤ 1 := by omega
  simp only [formBehind, if_neg hfar, if_pos hm]
  generalize s.kindAt m = k
  by_cases hcall : s.kindAt (m + 1) = .lparen
  · rw [if_pos hcall]
    cases k <;> first | exact .inl rfl | exact .inr rfl
  · rw [if_neg hcall]
    cases k <;> first | exact .inl rfl | exact .inr rfl

theorem kind_of_parens {m room : Nat} {s : TokenStream P} (h : s.Parens m) (hm : room < m) :
    ∃ t, s.ahead[room]? = some t ∧ t.kind = .lparen := by
  have hkind : s.kindAt room = .lparen := h.parens room hm
  cases hdrop : s.ahead.drop room with
  | nil => simp [kindAt, hdrop, s.final_kind] at hkind
  | cons t rest =>
      refine ⟨t, ?_, by simpa [kindAt, hdrop] using hkind⟩
      rw [← List.head?_drop, hdrop, List.head?_cons]

/-- An assigned value is read alike whether the parentheses in front of it are counted up to the
depth limit or to the end of their run. Where the limit stops the count, the expression and the
actor that stand there both reach it at the token that stopped it. -/
theorem assignable_eq_unboundedAssignable {limits : Limits} (hlook : 2 ≤ limits.lookahead)
    (room : Nat) (s : TokenStream P) :
    assignable limits room s = unboundedAssignable limits room s ∧
    ∀ e, parenRun limits.depth room s.ahead = .error e →
      (∃ t, s.ahead[room]? = some t ∧ t.kind = .lparen ∧ e = ⟨.nesting limits.depth, t.pos⟩) ∧
        expr limits.depth room s = .error e ∧ actor limits.depth room s = .error e := by
  have hparens := parens_parenCount s
  have hform : unboundedAssignable limits room s = (formBehind limits s (parenCount s.ahead) >>=
      assignableAs (expr limits.depth room) (actor limits.depth room)) s := rfl
  by_cases hroom : parenCount s.ahead ≤ room
  · have hrun : parenRun limits.depth room s.ahead = .ok (parenCount s.ahead) :=
      parenRun_eq_ok hparens hroom
    constructor
    · simp only [Stepwise.assignable, assignableForm, bind_assoc, get_bind, lift_bind hrun]
      rfl
    · intro e he
      rw [hrun] at he
      cases he
  · have hlong : room < parenCount s.ahead := Nat.lt_of_not_le hroom
    obtain ⟨t, ht, hkind⟩ := kind_of_parens hparens hlong
    have hexpr : expr limits.depth room s = .error ⟨.nesting limits.depth, t.pos⟩ :=
      exprAt_of_parens hparens hlong ht .chain
    have hactor : actor limits.depth room s = .error ⟨.nesting limits.depth, t.pos⟩ :=
      actor_of_parens hparens hlong ht
    have hrun : parenRun limits.depth room s.ahead = .error ⟨.nesting limits.depth, t.pos⟩ := by
      obtain ⟨t', ht', hrun⟩ := parenRun_eq_error limits.depth hparens hlong
      obtain rfl : t = t' := by
        rw [List.getElem?_append_left (List.getElem?_eq_some_iff.1 ht).1, ht] at ht'
        exact Option.some.inj ht'
      exact hrun
    constructor
    · have hbounded : assignable limits room s = .error ⟨.nesting limits.depth, t.pos⟩ := by
        apply bind_of_eq_error
        rw [assignableForm, get_bind, hrun]
        rfl
      rw [hbounded, hform]
      symm
      -- Whichever of the two forms is chosen, its rule is refused at the same parenthesis.
      rcases formBehind_of_parens hlook (Nat.zero_lt_of_lt hlong) s with h | h
      · rw [bind_of_eq_ok h]
        exact bind_of_eq_error hexpr
      · rw [bind_of_eq_ok h]
        exact bind_of_eq_error hactor
    · intro e he
      obtain rfl : _ = e := Except.error.inj (hrun.symm.trans he)
      exact ⟨⟨t, ht, hkind, rfl⟩, hexpr, hactor⟩

/-- Three parentheses where there is room for two: the third one is refused either way. -/
theorem unboundedAssignable_enclosedSample :
    2 ≤ (Limits.mk 2 2).lookahead ∧
      assignable ⟨2, 2⟩ 2 (enclosedSample 3) = .error ⟨.nesting 2, ()⟩ ∧
      unboundedAssignable ⟨2, 2⟩ 2 (enclosedSample 3) = .error ⟨.nesting 2, ()⟩ := by
  have hlook : 2 ≤ (Limits.mk 2 2).lookahead := Nat.le_refl 2
  have hbounded : assignable ⟨2, 2⟩ 2 (enclosedSample 3) = .error ⟨.nesting 2, ()⟩ := rfl
  have heq := (assignable_eq_unboundedAssignable hlook 2 (enclosedSample 3)).1
  exact ⟨hlook, hbounded, heq.symm.trans hbounded⟩

end Parser

end ActorLang
