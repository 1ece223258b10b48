import ActorLang.Proofs.Parser.Prediction
import ActorLang.Proofs.Run.Delimiters
import ActorLang.Proofs.Run.Extent
import ActorLang.Proofs.Run.Levels

/-!
# Progress

Every rule that succeeds has moved the cursor forward, because no rule of the grammar derives the
empty row apart from a block. The end of the input is never taken. A level is entered behind more
tokens than the level around it, and so is every round of a loop behind those before it. So all
recursion ends with the tokens: the parsers are equal to ones that recurse on the number of tokens
ahead and know neither a limit on the depth nor a bound on the rounds of a loop.
-/

namespace ActorLang

variable {P α β : Type}

/-! ## Cursors -/

namespace Form

theorem nullable_production (r : Rule) : r.production.nullable = r.nullable := by
  cases r <;> rfl

/-- The table of nullable rules is right: nothing else derives the empty row. -/
theorem Derives.nullable {f : Form} {ks : List TokenKind} (h : f.Derives ks) (hks : ks = []) :
    f.nullable = true := by
  induction h with
  | token k => cases hks
  | rule h ih => exact (nullable_production _).symm.trans (ih hks)
  | empty | starNil | starCons => rfl
  | seq hf hg ihf ihg =>
      obtain ⟨hf, hg⟩ := List.append_eq_nil_iff.1 hks
      exact Bool.and_eq_true_iff.2 ⟨ihf hf, ihg hg⟩
  | left h ih => exact Bool.or_eq_true_iff.2 (.inl (ih hks))
  | right h ih => exact Bool.or_eq_true_iff.2 (.inr (ih hks))

end Form

namespace TokenStream

/-- The cursor of a stream is at an index of the tokens, and the stream remembers the delimiters
that the tokens before leave open. -/
structure At (tokens : List (Token P)) (i : Nat) (s : TokenStream P) : Prop where
  ahead : tokens.drop i = s.ahead ++ [s.final]
  unclosed : s.unclosed = (tokens.take i).foldl (fun ks t => openAfter t.kind ks) []

variable {tokens us : List (Token P)} {i : Nat} {s s' : TokenStream P}

/-- Tokens with an end of input behind them can be read from every index on. -/
theorem exists_at (body : List (Token P)) {last : Token P} (hlast : last.kind = .eof)
    (hi : i ≤ body.length) : ∃ s : TokenStream P, s.At (body ++ [last]) i := by
  refine ⟨⟨body.drop i, last, _, hlast⟩, ?_, rfl⟩
  rw [List.drop_append_of_le_length hi]

theorem At.lt_length (h : s.At tokens i) : i < tokens.length := by
  have hlength := congrArg List.length h.ahead
  simp only [List.length_drop, List.length_append, List.length_singleton] at hlength
  omega

theorem At.takes (h : s.At tokens i) (hs : s.Takes us s') : s'.At tokens (i + us.length) := by
  have hdrop : tokens.drop i = us ++ (s'.ahead ++ [s'.final]) := by
    rw [h.ahead, hs.ahead, hs.final, List.append_assoc]
  refine ⟨?_, ?_⟩
  · rw [← List.drop_drop, hdrop, List.drop_left]
  · rw [List.take_add, hdrop, List.take_left, List.foldl_append, hs.unclosed, h.unclosed]

/-- A cursor that has taken a token is behind where it was, and still at a token. -/
theorem At.takes_forward (h : s.At tokens i) (hne : us ≠ []) (hs : s.Takes us s') :
    ∃ j, i < j ∧ j < tokens.length ∧ s'.At tokens j := by
  have hpos := List.length_pos_of_ne_nil hne
  have hs' := h.takes hs
  exact ⟨i + us.length, by omega, hs'.lt_length, hs'⟩

theorem Takes.length_lt (h : s.Takes us s') (hne : us ≠ []) :
    s'.ahead.length < s.ahead.length := by
  have hpos := List.length_pos_of_ne_nil hne
  rw [h.ahead, List.length_append]
  omega

theorem closes_of_mem_openAfter {k c : TokenKind} {ks : List TokenKind}
    (hks : ∀ c ∈ ks, c.closes = true) (hc : c ∈ openAfter k ks) : c.closes = true := by
  unfold openAfter at hc
  split at hc
  case h_3 =>
    rcases List.mem_append.1 hc with hc | hc
    · exact (TokenKind.closes_of_closer (Option.mem_toList.1 hc)).2
    · exact hks c hc
  all_goals exact hks c (List.mem_of_mem_tail hc)

theorem At.closes (h : s.At tokens i) : ∀ c ∈ s.unclosed, c.closes = true := by
  have hfold : ∀ (us : List (Token P)) (ks : List TokenKind), (∀ c ∈ ks, c.closes = true) →
      ∀ c ∈ us.foldl (fun ks t => openAfter t.kind ks) ks, c.closes = true := by
    intro us
    induction us with
    | nil => exact fun ks hks => hks
    | cons t us ih => exact fun ks hks => ih _ fun c hc => closes_of_mem_openAfter hks hc
  rw [h.unclosed]
  exact hfold _ [] (by simp)

/-- A stack of closers is left open by a row of opening delimiters. -/
theorem exists_nestAll? (pos : P) {stack : List TokenKind} (h : ∀ c ∈ stack, c.closes = true) :
    ∃ taken : List (Token P), TokenKind.nestAll? (taken.map Token.kind) [] = some stack := by
  induction stack with
  | nil => exact ⟨[], rfl⟩
  | cons c stack ih =>
      obtain ⟨hc, hstack⟩ := List.forall_mem_cons.1 h
      obtain ⟨taken, htaken⟩ := ih hstack
      obtain ⟨k, hk⟩ : ∃ k : TokenKind, k.closer = some c := by
        revert hc
        cases c with
        | rparen => exact fun _ => ⟨.lparen, rfl⟩
        | rbrace => exact fun _ => ⟨.lbrace, rfl⟩
        | _ => exact fun hc => nomatch hc
      refine ⟨taken ++ [⟨k, "", pos⟩], ?_⟩
      rw [List.map_append, TokenKind.nestAll?_append, htaken, Option.bind_some, List.map_singleton,
        TokenKind.nestAll?, TokenKind.nest?_opener hk]
      rfl

/-- Whatever a stream has open, it could have been reached by opening it. -/
theorem At.exists_nested (h : s.At tokens i) : ∃ input, s.Nested input s.unclosed := by
  obtain ⟨taken, htaken⟩ := exists_nestAll? s.final.pos h.closes
  exact ⟨taken ++ (s.ahead ++ [s.final]), rfl, taken, rfl, htaken⟩

end TokenStream

/-! ## Rules -/

namespace Parser

open TokenStream Form

/-- A parser, written over the way in which tokens are taken, never takes the end of the input. -/
structure Inside (stepwise : Parser P (Token P) → Parser P α) (p : Parser P α) : Prop where
  plain : ∀ tokens i s, s.At tokens i → stepwise take s = p s
  guarded : ∀ tokens i s, s.At tokens i →
    stepwise (watchedTake fun s => s.current.kind != .eof) s = p s

/-- A rule that succeeds has moved the cursor forward, at most to the last token, and it takes no
end of the input, even one before the last token. -/
structure Progress (stepwise : Parser P (Token P) → Parser P α) (rule : Parser P α) : Prop where
  forward : ∀ tokens i s a s', s.At tokens i → rule s = .ok (a, s') →
    ∃ j, i < j ∧ j < tokens.length ∧ s'.At tokens j
  inside : Inside stepwise rule

def Consumes (p : Parser P α) : Prop :=
  ∀ s a s', p s = .ok (a, s') → ∃ us, us ≠ [] ∧ s.Takes us s'

def Moves (p : Parser P α) : Prop :=
  ∀ s a s', p s = .ok (a, s') → ∃ us, s.Takes us s'

theorem Consumes.moves {p : Parser P α} (h : Consumes p) : Moves p := fun s a s' ha => by
  obtain ⟨us, -, htakes⟩ := h s a s' ha
  exact ⟨us, htakes⟩

theorem moves_pure (a : α) : Moves (pure a : Parser P α) := fun s b s' h => by
  obtain ⟨-, rfl⟩ : a = b ∧ s = s' := by simpa using h
  exact ⟨[], .nil s⟩

theorem Moves.bind {p : Parser P α} {f : α → Parser P β} (hp : Moves p) (hf : ∀ a, Moves (f a)) :
    Moves (p >>= f) := fun s b s' h => by
  obtain ⟨s₁, a, ha, hb⟩ := bind_eq_ok.1 h
  obtain ⟨us, hus⟩ := hp s a s₁ ha
  obtain ⟨vs, hvs⟩ := hf a s₁ b s' hb
  exact ⟨us ++ vs, hus.append hvs⟩

theorem Consumes.bind {p : Parser P α} {f : α → Parser P β} (hp : Consumes p)
    (hf : ∀ a, Moves (f a)) : Consumes (p >>= f) := fun s b s' h => by
  obtain ⟨s₁, a, ha, hb⟩ := bind_eq_ok.1 h
  obtain ⟨us, hne, hus⟩ := hp s a s₁ ha
  obtain ⟨vs, hvs⟩ := hf a s₁ b s' hb
  exact ⟨us ++ vs, by simp [hne], hus.append hvs⟩

theorem consumes_expect {k : TokenKind} (hk : k ≠ .eof) : Consumes (expect k : Parser P _) :=
  fun s t s' h => by
  obtain ⟨-, hgives⟩ := (expect_eq_ok hk).1 h
  have hkind : s.current.kind ≠ .eof := by rwa [hgives.current_kind]
  obtain ⟨_, _, _, _, rfl⟩ := hgives
  exact ⟨_, List.cons_ne_nil _ _, .next hkind⟩

/-- A parser takes a token if it reads a form that does not derive the empty row. -/
theorem consumes_of_outcome (limits limits' : Limits) (n : Nat) {f : Form} {more : List TokenKind}
    {w : TokenStream P → Nat} {p q : Parser P α} (hf : f.nullable = false)
    (h : ∀ s, Outcome limits limits' f more (w s) n p q s) : Consumes p := by
  intro s a s' hp
  obtain ⟨us, hpass⟩ := (h s).passage hp
  refine ⟨us, ?_, hpass.takes⟩
  rintro rfl
  rw [hpass.derives.nullable rfl] at hf
  cases hf

theorem consumes_exprAt (limit room : Nat) (tier : Tier) :
    Consumes (exprAt limit room tier : Parser P _) :=
  consumes_of_outcome ⟨0, limit⟩ ⟨0, limit⟩ room rfl
    (Outcome.exprAt (Nat.add_zero limit).symm room tier)

theorem consumes_actor (limit room : Nat) : Consumes (actor limit room : Parser P _) :=
  consumes_of_outcome ⟨0, limit⟩ ⟨0, limit⟩ room rfl
    (Outcome.actor (Nat.add_zero limit).symm room)

theorem consumes_statement (limits : Limits) : Consumes (statement limits : Parser P _) :=
  consumes_of_outcome limits limits _ rfl
    (Outcome.statement (Nat.add_zero limits.depth).symm (.inl rfl))

theorem consumes_function (limits : Limits) : Consumes (function limits : Parser P _) :=
  consumes_of_outcome limits limits _ rfl
    (Outcome.function (Nat.add_zero limits.depth).symm (.inl rfl))

theorem consumes_mapItem : Consumes (mapItem : Parser P _) :=
  consumes_of_outcome ⟨0, 0⟩ ⟨0, 0⟩ 0 rfl fun _ => .mapItem

section Keeps

variable {stepwise : Parser P (Token P) → Parser P α} {p : Parser P α}
  (h : ∀ {input watch stack s}, Tolerant watch input → s.Nested input stack →
    Keeps input stack (stepwise (watchedTake watch)) p s)

include h

theorem inside_of_keeps : Inside stepwise p := by
  refine ⟨fun tokens i s hs => ?_, fun tokens i s hs => ?_⟩
  · obtain ⟨input, hnested⟩ := hs.exists_nested
    have htake : (watchedTake fun _ => true : Parser P (Token P)) = take := rfl
    rw [← htake]
    exact (h (fun _ _ => rfl) hnested).eq
  · obtain ⟨input, hnested⟩ := hs.exists_nested
    refine (h (fun s hstep => ?_) hnested).eq
    simpa using hstep.inside

theorem progress_of_keeps (hp : Consumes p) : Progress stepwise p := by
  refine ⟨fun tokens i s a s' hs ha => ?_, inside_of_keeps h⟩
  obtain ⟨us, hne, htakes⟩ := hp s a s' ha
  exact hs.takes_forward hne htakes

end Keeps

/-! ## Levels -/

def behind (s : TokenStream P) (p : Parser P α) : Parser P α := fun s' =>
  if s'.ahead.length < s.ahead.length then p s' else fail (.internal "no token was taken") s'

theorem length_lt_of_behind {s s₁ : TokenStream P} (h : s₁.Behind (s.ahead ++ [s.final]) 1) :
    s₁.ahead.length < s.ahead.length := by
  obtain ⟨taken, hinput, htaken⟩ := h
  have hlength := congrArg List.length hinput
  simp only [List.length_append, List.length_singleton] at hlength
  omega

theorem behind_self (s : TokenStream P) : s.Behind (s.ahead ++ [s.final]) 0 :=
  ⟨[], rfl, Nat.zero_le _⟩

theorem agree_of_consumes {p q : Parser P α} {input : List (Token P)} {m : Nat}
    {s : TokenStream P} (hp : Consumes p) (h : p s = q s) (hs : s.Behind input m) :
    Agree input m p q s := by
  refine ⟨h, fun a s' ha => ?_⟩
  obtain ⟨us, -, htakes⟩ := hp s a s' ha
  exact (hs.takes htakes).mono (Nat.le_add_right ..)

/-- An expression depends only on the expressions that it reads behind its first token. -/
theorem exprOf_congr {e e' : Tier → Parser P (Expr P)} {s : TokenStream P} (tier : Tier)
    (he : ∀ tier, Consumes (e tier))
    (h : ∀ tier (s₁ : TokenStream P), s₁.ahead.length < s.ahead.length → e tier s₁ = e' tier s₁) :
    exprOf e tier s = exprOf e' tier s := by
  refine (Agree.exprOf (fun tier s₁ hs₁ => ?_) tier (behind_self s)).eq
  exact agree_of_consumes (he tier) (h tier s₁ (length_lt_of_behind hs₁)) hs₁

/-- The actors and expressions inside an actor are read behind its first token, so that only shorter
streams matter. -/
theorem actorOf_congr {a a' : Parser P (Actor P)} (e e' : Tier → Parser P (Expr P))
    {s : TokenStream P} (ha : Consumes a) (he : ∀ tier, Consumes (e tier))
    (h : ∀ s₁ : TokenStream P, s₁.ahead.length < s.ahead.length → a s₁ = a' s₁)
    (h' : ∀ tier (s₁ : TokenStream P), s₁.ahead.length < s.ahead.length → e tier s₁ = e' tier s₁) :
    actorOf a (e .chain) s = actorOf a' (e' .chain) s := by
  refine (Agree.actorOf (fun tier s₁ hs₁ => ?_) (fun s₁ hs₁ => ?_) (behind_self s)).eq
  · exact agree_of_consumes (he tier) (h' tier s₁ (length_lt_of_behind hs₁)) hs₁
  · exact agree_of_consumes ha (h s₁ (length_lt_of_behind hs₁)) hs₁

theorem eq_behind {p : Parser P α} {s s₁ : TokenStream P}
    (h : s₁.ahead.length < s.ahead.length) : p s₁ = behind s p s₁ :=
  (if_pos h).symm

theorem exprOf_behind {e : Tier → Parser P (Expr P)} {s : TokenStream P} (tier : Tier)
    (he : ∀ tier, Consumes (e tier)) :
    exprOf e tier s = exprOf (fun tier => behind s (e tier)) tier s :=
  exprOf_congr tier he fun _ _ => eq_behind

theorem actorOf_behind {a : Parser P (Actor P)} {e : Tier → Parser P (Expr P)}
    {s : TokenStream P} (ha : Consumes a) (he : ∀ tier, Consumes (e tier)) :
    actorOf a (e .chain) s = actorOf (behind s a) (behind s (e .chain)) s :=
  actorOf_congr e (fun tier => behind s (e tier)) ha he (fun _ => eq_behind) fun _ _ => eq_behind

def unlimitedExpr (tier : Tier) (s : TokenStream P) :
    Except (ParseError P) (Expr P × TokenStream P) :=
  exprOf (fun tier => fun s' =>
    if _h : s'.ahead.length < s.ahead.length then unlimitedExpr tier s'
    else fail (.internal "no token was taken") s') tier s
termination_by s.ahead.length

def unlimitedActor (s : TokenStream P) : Except (ParseError P) (Actor P × TokenStream P) :=
  actorOf (fun s' =>
    if _h : s'.ahead.length < s.ahead.length then unlimitedActor s'
    else fail (.internal "no token was taken") s') (behind s (unlimitedExpr .chain)) s
termination_by s.ahead.length

section Unlimited

variable {s : TokenStream P}

theorem unlimitedExpr_eq (tier : Tier) (s : TokenStream P) :
    unlimitedExpr tier s = exprOf (fun tier => behind s (unlimitedExpr tier)) tier s := by
  rw [unlimitedExpr]
  simp only [dite_eq_ite]
  rfl

theorem unlimitedActor_eq (s : TokenStream P) : unlimitedActor s =
    actorOf (behind s unlimitedActor) (behind s (unlimitedExpr .chain)) s := by
  rw [unlimitedActor]
  simp only [dite_eq_ite]
  rfl

/-- With more room than tokens the room does not matter. -/
theorem exprAt_eq_unlimited {limit room : Nat} (h : s.ahead.length < room) (tier : Tier) :
    exprAt limit room tier s = unlimitedExpr tier s := by
  induction room generalizing s tier with
  | zero => exact absurd h (Nat.not_lt_zero _)
  | succ room ih =>
      rw [unlimitedExpr_eq]
      refine exprOf_congr tier (consumes_exprAt limit room) fun tier s₁ hs₁ => ?_
      exact (ih (by omega) tier).trans (eq_behind hs₁)

/-- Room for more levels than there are tokens is not noticed. -/
theorem actor_eq_unlimited {limit room : Nat} (h : s.ahead.length < room) :
    actor limit room s = unlimitedActor s := by
  induction room generalizing s with
  | zero => exact absurd h (Nat.not_lt_zero _)
  | succ room ih =>
      rw [unlimitedActor_eq]
      refine actorOf_congr (exprAt limit room) (fun tier => behind s (unlimitedExpr tier))
        (consumes_actor limit room) (consumes_exprAt limit room) (fun s₁ hs₁ => ?_)
        fun tier s₁ hs₁ => ?_
      · exact (ih (by omega)).trans (eq_behind hs₁)
      · exact (exprAt_eq_unlimited (by omega) tier).trans (eq_behind hs₁)

theorem consumes_unlimitedExpr (tier : Tier) : Consumes (unlimitedExpr tier : Parser P _) :=
  fun s e s' h => by
  have heq : exprAt 0 (s.ahead.length + 1) tier s = unlimitedExpr tier s :=
    exprAt_eq_unlimited (Nat.lt_succ_self _) tier
  exact consumes_exprAt _ _ tier s e s' (heq.trans h)

theorem consumes_unlimitedActor : Consumes (unlimitedActor : Parser P _) := fun s a s' h => by
  have heq : actor 0 (s.ahead.length + 1) s = unlimitedActor s :=
    actor_eq_unlimited (Nat.lt_succ_self _)
  exact consumes_actor _ _ s a s' (heq.trans h)

end Unlimited

/-- What is inside of an expression or an actor is entered behind more tokens than the whole,
whatever the limit on the depth, and also without one. -/
structure LevelProgress (P : Type) : Prop where
  exprInside : ∀ limit room tier (s : TokenStream P), exprAt limit (room + 1) tier s =
    exprOf (fun tier => behind s (exprAt limit room tier)) tier s
  actorInside : ∀ limit room (s : TokenStream P), actor limit (room + 1) s =
    actorOf (behind s (actor limit room)) (behind s (exprAt limit room .chain)) s
  exprFree : ∀ tier (s : TokenStream P), unlimitedExpr tier s = exprOf unlimitedExpr tier s
  actorFree : ∀ s : TokenStream P,
    unlimitedActor s = actorOf unlimitedActor (unlimitedExpr .chain) s

theorem levelProgress (P : Type) : LevelProgress P where
  exprInside := fun limit room tier _ => exprOf_behind tier (consumes_exprAt limit room)
  actorInside := fun limit room _ =>
    actorOf_behind (consumes_actor limit room) (consumes_exprAt limit room)
  exprFree := fun tier s =>
    (unlimitedExpr_eq tier s).trans (exprOf_behind tier consumes_unlimitedExpr).symm
  actorFree := fun s => (unlimitedActor_eq s).trans
    (actorOf_behind consumes_unlimitedActor consumes_unlimitedExpr).symm

/-! ## Loops -/

def unbounded (go : TokenKind → Bool) (item : Parser P α) (s : TokenStream P) :
    Except (ParseError P) (List α × TokenStream P) :=
  if go s.current.kind = true then
    (item >>= fun a => (fun s' =>
      if _h : s'.ahead.length < s.ahead.length then unbounded go item s'
      else fail (.internal "no token was taken") s' : Parser P (List α)) >>= fun as =>
        pure (a :: as)) s
  else .ok ([], s)
termination_by s.ahead.length

/-- A loop takes a token in every round. It is therefore the plain repetition of its rounds, and a
bound on their number that the tokens ahead do not exceed is not noticed. -/
structure LoopProgress (go : TokenKind → Bool) (item : Parser P α) (finish : List α → β)
    (loop : Nat → Parser P β) : Prop where
  round : ∀ tokens i s a s', s.At tokens i → go s.current.kind = true → item s = .ok (a, s') →
    ∃ j, i < j ∧ j < tokens.length ∧ s'.At tokens j
  step : ∀ s, unbounded go item s = if go s.current.kind = true then
    (item >>= fun a => (unbounded go item : Parser P _) >>= fun as => pure (a :: as)) s
    else .ok ([], s)
  free : ∀ n s, s.ahead.length ≤ n →
    loop n s = ((unbounded go item : Parser P _) >>= fun as => (pure (finish as) : Parser P _)) s

section Loops

variable {go : TokenKind → Bool} {item : Parser P α}

theorem unbounded_eq (s : TokenStream P) :
    unbounded go item s = if go s.current.kind = true then
      (item >>= fun a => behind s (unbounded go item) >>= fun as => pure (a :: as)) s
      else .ok ([], s) := by
  rw [unbounded]
  simp only [dite_eq_ite]
  rfl

variable (heof : go .eof = false)
  (hitem : ∀ s a s', go s.current.kind = true → item s = .ok (a, s') →
    ∃ us, us ≠ [] ∧ s.Takes us s')

include hitem

/-- The guard on the further rounds is never noticed. -/
theorem unbounded_step (s : TokenStream P) :
    unbounded go item s = if go s.current.kind = true then
      (item >>= fun a => (unbounded go item : Parser P _) >>= fun as => pure (a :: as)) s
      else .ok ([], s) := by
  rw [unbounded_eq]
  by_cases hgo : go s.current.kind = true
  · rw [if_pos hgo, if_pos hgo]
    refine bind_congr_of_ok fun a s' ha => ?_
    obtain ⟨us, hne, htakes⟩ := hitem s a s' hgo ha
    have hrest : behind s (unbounded go item) s' = unbounded go item s' :=
      if_pos (htakes.length_lt hne)
    simp only [bind, StateT.bind, hrest]
  · rw [if_neg hgo, if_neg hgo]

include heof

/-- A bound on the rounds that the tokens ahead do not exceed is not noticed. -/
theorem rounds_eq_unbounded {n : Nat} {s : TokenStream P} (hn : s.ahead.length ≤ n) :
    rounds go item n s = unbounded go item s := by
  induction n generalizing s with
  | zero =>
      have hahead : s.ahead = [] := List.length_eq_zero_iff.1 (Nat.le_zero.1 hn)
      have hstop : go s.current.kind ≠ true := by
        simpa [TokenStream.current, hahead, s.final_kind] using heof
      rw [unbounded_eq, if_neg hstop]
      rfl
  | succ n ih =>
      rw [rounds_succ, unbounded_step hitem]
      by_cases hgo : go s.current.kind = true
      · rw [if_pos hgo, if_pos hgo]
        refine bind_congr_of_ok fun a s' ha => ?_
        obtain ⟨us, hne, htakes⟩ := hitem s a s' hgo ha
        have hlt := htakes.length_lt hne
        have hrest : rounds go item n s' = unbounded go item s' := ih (by omega)
        simp only [bind, StateT.bind, hrest]
      · rw [if_neg hgo, if_neg hgo]

theorem loopProgress_of_rounds {finish : List α → β} {loop : Nat → Parser P β}
    (hloop : ∀ n, loop n = rounds go item n >>= fun as => pure (finish as)) :
    LoopProgress go item finish loop := by
  refine ⟨fun tokens i s a s' hs hgo ha => ?_, unbounded_step hitem, fun n s hn => ?_⟩
  · obtain ⟨us, hne, htakes⟩ := hitem s a s' hgo ha
    exact hs.takes_forward hne htakes
  · rw [hloop]
    simp only [bind, StateT.bind, rounds_eq_unbounded heof hitem hn]

end Loops

theorem consumes_take_bind {k : TokenKind} (hk : k ≠ .eof) {f : Token P → Parser P α}
    (hf : ∀ t, Moves (f t)) {s s' : TokenStream P} {a : α} (hs : s.current.kind = k)
    (h : (take >>= f) s = .ok (a, s')) : ∃ us, us ≠ [] ∧ s.Takes us s' := by
  rw [take_bind_eq_expect hs] at h
  exact (consumes_expect hk).bind hf s a s' h

theorem loopProgress_commas {item : Parser P α} (hitem : Consumes item) :
    LoopProgress (· == .comma) (take >>= fun _ => item) id (itemsAfterComma item) := by
  apply loopProgress_of_rounds rfl
  · intro s a s' hgo ha
    exact consumes_take_bind (by decide) (fun _ => hitem.moves) (beq_iff_eq.1 hgo) ha
  · intro n
    rw [itemsAfterComma_eq_rounds]
    exact (bind_pure _).symm

theorem loopProgress_operators {operand : Parser P (Expr P)} (h : Consumes operand)
    (left : Expr P) :
    LoopProgress (· == .binOp) (operation operand) (applyAll left)
      fun n => operatorsAfter operand n left := by
  apply loopProgress_of_rounds rfl
  · intro s a s' hgo ha
    refine consumes_take_bind (by decide) (fun t => ?_) (beq_iff_eq.1 hgo) ha
    have hoperator : Moves (operator t) := fun s₁ op s₂ hop =>
      ⟨[], (operator_eq_ok.1 hop).2 ▸ .nil s₁⟩
    exact hoperator.bind fun _ => h.moves.bind fun _ => moves_pure _
  · exact fun n => operatorsAfter_eq_rounds operand n left

theorem loopProgress_rounds {go : TokenKind → Bool} {item : Parser P α} (heof : go .eof = false)
    (hitem : Consumes item) : LoopProgress go item id (rounds go item) :=
  loopProgress_of_rounds heof (fun s a s' _ => hitem s a s') fun _ => (bind_pure _).symm

theorem Consumes.line {statement : Parser P (Statement P)} (h : Consumes statement) :
    Consumes (line statement) :=
  h.bind fun st => (consumes_expect (by decide)).moves.bind fun _ => moves_pure st

/-! ## Whole inputs -/

def unlimitedAssignable (lookahead : Nat) : Parser P (Assignable P) := do
  let s ← get
  let form ← formBehind ⟨lookahead, 0⟩ s (parenCount s.ahead)
  assignableAs (unlimitedExpr .chain) unlimitedActor form

def unlimitedStatement (lookahead : Nat) : Parser P (Statement P) :=
  statementOf (unlimitedAssignable lookahead) unlimitedActor

def unlimitedProgram (lookahead : Nat) : Parser P (Program P) :=
  spanning (Rule.first .stmt) (programOf (unlimitedStatement lookahead))

section Whole

variable {limits : Limits} {input : List (Token P)} {s : TokenStream P}

theorem assignableForm_of_room {room : Nat} (h : s.ahead.length ≤ room) :
    assignableForm limits room s = formBehind limits s (parenCount s.ahead) s := by
  have hcount : parenCount s.ahead ≤ room :=
    Nat.le_trans (List.takeWhile_sublist _).length_le h
  rw [assignableForm, get_bind, lift_bind (parenRun_eq_ok (parens_parenCount s) hcount)]

theorem length_lt_depth (hs : s.Behind input 0) (hdepth : input.length ≤ limits.depth) :
    s.ahead.length < limits.depth := by
  obtain ⟨taken, rfl, -⟩ := hs
  simp only [List.length_append, List.length_singleton] at hdepth
  omega

variable (hdepth : input.length ≤ limits.depth)

include hdepth

theorem agree_unlimitedExpr (hs : s.Behind input 0) :
    Agree input 0 (expr limits.depth limits.depth) (unlimitedExpr .chain) s :=
  agree_of_consumes (consumes_exprAt _ _ .chain)
    (exprAt_eq_unlimited (length_lt_depth hs hdepth) .chain) hs

theorem agree_unlimitedActor (hs : s.Behind input 0) :
    Agree input 0 (actor limits.depth limits.depth) unlimitedActor s :=
  agree_of_consumes (consumes_actor _ _) (actor_eq_unlimited (length_lt_depth hs hdepth)) hs

theorem agree_unlimitedStatement (hs : s.Behind input 0) :
    Agree input 0 (statement limits) (unlimitedStatement limits.lookahead) s := by
  refine Agree.statementOf (fun s hs => ?_) (fun s hs => agree_unlimitedActor hdepth hs) hs
  have hform : Agree input 0 (assignableForm limits limits.depth)
      (formBehind ⟨limits.lookahead, 0⟩ s (parenCount s.ahead)) s :=
    ⟨assignableForm_of_room (length_lt_depth hs hdepth).le,
      fun _ _ h => assignableForm_state h ▸ hs⟩
  refine Agree.congr (hform.bind fun form s₁ hs₁ => ?_) rfl rfl
  exact Agree.assignableAs (agree_unlimitedExpr hdepth hs₁) (agree_unlimitedActor hdepth hs₁) hs₁
    form

end Whole

theorem consumes_unlimitedStatement (lookahead : Nat) :
    Consumes (unlimitedStatement lookahead : Parser P _) := fun s st s' h => by
  have heq : statement ⟨lookahead, (s.ahead ++ [s.final]).length⟩ s =
      unlimitedStatement lookahead s :=
    (agree_unlimitedStatement (Nat.le_refl _) (behind_self s)).eq
  exact consumes_statement _ s st s' (heq.trans h)

theorem consumes_unlimitedFunction (lookahead : Nat) :
    Consumes (functionOf (unlimitedStatement lookahead) : Parser P _) := fun s f s' h => by
  have heq : function ⟨lookahead, (s.ahead ++ [s.final]).length⟩ s =
      functionOf (unlimitedStatement lookahead) s := by
    refine (Agree.functionOf (fun _ hs => ?_) (behind_self s)).eq
    exact agree_unlimitedStatement (Nat.le_refl _) hs
  exact consumes_function _ s f s' (heq.trans h)

section Entry

variable {limits : Limits} {s : TokenStream P} (h : s.ahead.length < limits.depth)

include h

theorem length_le_depth : (s.ahead ++ [s.final]).length ≤ limits.depth := by
  rw [List.length_append, List.length_singleton]
  exact h

theorem program_eq_unlimited : program limits s = unlimitedProgram limits.lookahead s := by
  refine (Agree.programOf (fun _ hs => ?_) (behind_self s)).spanning.eq
  exact agree_unlimitedStatement (length_le_depth h) hs

theorem wholeActor_eq_unlimited : wholeActor limits s = spanning [] unlimitedActor s :=
  (agree_unlimitedActor (length_le_depth h) (behind_self s)).spanning.eq

theorem wholeExpr_eq_unlimited : wholeExpr limits s = spanning [.binOp] (unlimitedExpr .chain) s :=
  (agree_unlimitedExpr (length_le_depth h) (behind_self s)).spanning.eq

end Entry

structure RuleProgress (P : Type) (limits : Limits) : Prop where
  statement : Progress (P := P) (Stepwise.statement · limits) (statement limits)
  actor : ∀ limit room, Progress (P := P) (Stepwise.actor · limit room) (actor limit room)
  expr : ∀ limit room tier,
    Progress (P := P) (Stepwise.exprAt · limit room tier) (exprAt limit room tier)
  artifact : Progress (P := P) Stepwise.artifact artifact
  argMap : Progress (P := P) Stepwise.argMap argMap
  mapItem : Progress (P := P) Stepwise.mapItem mapItem
  idents : Progress (P := P) (fun take => Stepwise.commaSeparated take (Stepwise.ident take)) idents
  verdicts : Progress (P := P)
    (fun take => Stepwise.commaSeparated take (Stepwise.verdict take)) verdicts
  quotedIdent : Progress (P := P) Stepwise.quotedIdent quotedIdent
  function : Progress (P := P) (Stepwise.function · limits) (function limits)

theorem ruleProgress (P : Type) (limits : Limits) : RuleProgress P limits where
  statement := progress_of_keeps (fun hwatch => .statement hwatch limits)
    (consumes_statement limits)
  actor := fun limit room =>
    progress_of_keeps (fun hwatch => .actor hwatch limit room) (consumes_actor limit room)
  expr := fun limit room tier =>
    progress_of_keeps (fun hwatch => .exprAt hwatch limit room tier)
      (consumes_exprAt limit room tier)
  artifact := progress_of_keeps (fun hwatch => .artifact hwatch)
    (consumes_of_outcome limits limits 0 rfl fun _ => .artifact)
  argMap := progress_of_keeps (fun hwatch => .argMap hwatch)
    (consumes_of_outcome limits limits 0 rfl fun _ => .argMap)
  mapItem := progress_of_keeps (fun hwatch => .mapItem hwatch) consumes_mapItem
  idents := progress_of_keeps (fun hwatch => .commaSeparated hwatch fun _ => .ident hwatch)
    (consumes_of_outcome limits limits 0 rfl fun _ => .idents)
  verdicts := progress_of_keeps (fun hwatch => .commaSeparated hwatch fun _ => .verdict hwatch)
    (consumes_of_outcome limits limits 0 rfl fun _ => .verdicts)
  quotedIdent := progress_of_keeps (fun hwatch => .quotedIdent hwatch)
    (consumes_of_outcome limits limits 0 rfl fun _ => .quotedIdent)
  function := progress_of_keeps (fun hwatch => .function hwatch limits) (consumes_function limits)

structure LoopsProgress (P : Type) (limits : Limits) : Prop where
  idents : LoopProgress (P := P) (· == .comma) (take >>= fun _ => ident) id (itemsAfterComma ident)
  verdicts : LoopProgress (P := P) (· == .comma) (take >>= fun _ => verdict) id
    (itemsAfterComma verdict)
  mapItems : LoopProgress (P := P) (· == .comma) (take >>= fun _ => mapItem) id
    (itemsAfterComma mapItem)
  operators : ∀ limit room left, LoopProgress (P := P) (· == .binOp)
    (operation (exprAt limit room .operand)) (applyAll left)
    fun n => operatorsAfter (exprAt limit room .operand) n left
  operatorsFree : ∀ left, LoopProgress (P := P) (· == .binOp) (operation (unlimitedExpr .operand))
    (applyAll left) fun n => operatorsAfter (unlimitedExpr .operand) n left
  statements : LoopProgress (P := P) (Rule.starts .stmt) (line (statement limits)) id
    (statements limits)
  statementsFree : LoopProgress (P := P) (Rule.starts .stmt)
    (line (unlimitedStatement limits.lookahead)) id
    (rounds (Rule.starts .stmt) (line (unlimitedStatement limits.lookahead)))
  functions : LoopProgress (P := P) (· == .func) (function limits) id (functions limits)
  functionsFree : LoopProgress (P := P) (· == .func)
    (functionOf (unlimitedStatement limits.lookahead)) id
    (rounds (· == .func) (functionOf (unlimitedStatement limits.lookahead)))

theorem loopsProgress (P : Type) (limits : Limits) : LoopsProgress P limits where
  idents := loopProgress_commas (consumes_of_outcome limits limits 0 rfl fun _ => .ident)
  verdicts := loopProgress_commas (consumes_of_outcome limits limits 0 rfl fun _ => .verdict)
  mapItems := loopProgress_commas consumes_mapItem
  operators := fun limit room => loopProgress_operators (consumes_exprAt limit room .operand)
  operatorsFree := loopProgress_operators (consumes_unlimitedExpr .operand)
  statements := loopProgress_rounds rfl (consumes_statement limits).line
  statementsFree := loopProgress_rounds rfl (consumes_unlimitedStatement limits.lookahead).line
  functions := loopProgress_rounds rfl (consumes_function limits)
  functionsFree := loopProgress_rounds rfl (consumes_unlimitedFunction limits.lookahead)

/-- A parser makes progress in all that it does, and needs no limit to come to an end. -/
structure MakesProgress (P : Type) (limits : Limits) : Prop where
  /-- There is a cursor at every token of a row that ends with the end of the input. -/
  cursor : ∀ (body : List (Token P)) last i, last.kind = .eof → i ≤ body.length →
    ∃ s : TokenStream P, s.At (body ++ [last]) i
  rules : RuleProgress P limits
  loops : LoopsProgress P limits
  levels : LevelProgress P
  program : Inside (P := P) (Stepwise.program · limits) (program limits) ∧
    ∀ s : TokenStream P, s.ahead.length < limits.depth →
      program limits s = unlimitedProgram limits.lookahead s
  wholeActor : Inside (P := P) (Stepwise.wholeActor · limits) (wholeActor limits) ∧
    ∀ s : TokenStream P, s.ahead.length < limits.depth →
      wholeActor limits s = spanning [] unlimitedActor s
  wholeExpr : Inside (P := P) (Stepwise.wholeExpr · limits) (wholeExpr limits) ∧
    ∀ s : TokenStream P, s.ahead.length < limits.depth →
      wholeExpr limits s = spanning [.binOp] (unlimitedExpr .chain) s

/-- Every parse makes progress: a rule that succeeds has moved the cursor forward and not beyond the
last token, no end of input is taken, and levels of nesting and rounds of a loop are entered behind
ever more tokens. So the recursion is well-founded on the tokens ahead. -/
theorem makesProgress (P : Type) (limits : Limits) : MakesProgress P limits where
  cursor := fun body _ _ hlast hi => TokenStream.exists_at body hlast hi
  rules := ruleProgress P limits
  loops := loopsProgress P limits
  levels := levelProgress P
  program := by
    refine ⟨inside_of_keeps fun hwatch => .program hwatch limits, fun s h => ?_⟩
    exact program_eq_unlimited h
  wholeActor := by
    refine ⟨inside_of_keeps fun hwatch => .wholeActor hwatch limits, fun s h => ?_⟩
    exact wholeActor_eq_unlimited h
  wholeExpr := by
    refine ⟨inside_of_keeps fun hwatch => .wholeExpr hwatch limits, fun s h => ?_⟩
    exact wholeExpr_eq_unlimited h

/-- Under the greatest limit that fits into a word, an actor is read up to an end of input that is
not the last token, and nothing is read there. -/
theorem makesProgress_leftoverSample :
    let limit := 18446744073709551615
    ∃ s s' a, s.At Token.leftoverSample 0 ∧ actor limit limit s = .ok (a, s') ∧
      (∃ j, 0 < j ∧ j < 4 ∧ s'.At Token.leftoverSample j) ∧ s'.current.kind = .eof ∧
      Stepwise.actor (watchedTake fun s => s.current.kind != .eof) limit limit s' =
        .error ⟨.unexpected (Rule.first .actor) .eof "", 1⟩ := by
  intro limit
  have hprogress := (makesProgress Nat {}).rules.actor limit limit
  have hs : (⟨Token.leftoverSample.dropLast, ⟨.eof, "", 3⟩, [], rfl⟩ : TokenStream Nat).At
      Token.leftoverSample 0 := ⟨rfl, rfl⟩
  obtain ⟨j, hj, hlt, hs'⟩ := hprogress.forward _ _ _ _ _ hs rfl
  refine ⟨_, _, _, hs, rfl, ⟨j, hj, hlt, hs'⟩, rfl, ?_⟩
  exact (hprogress.inside.guarded _ _ _ hs').trans rfl

end Parser

end ActorLang
