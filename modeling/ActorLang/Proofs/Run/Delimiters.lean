import ActorLang.Proofs.Delimiters
import ActorLang.Proofs.Run.Limits
import ActorLang.Proofs.Run.Program

/-!
# Open delimiters

In every state of a parse, the stream remembers exactly the closers that are missing for the tokens
taken so far. A closer is only ever taken where it is the one missing most recently. So nothing is
left open by a parse that succeeds, and a parse that breaks off at the end of its input lists a
closer as expected if and only if it is missing.

What holds in all states that a parse goes through is said by a `watch`. It is asked before every
token that is taken and stops the parse unless it agrees, so that a watch that agrees whenever the
property holds is never noticed. Each rule leaves the missing closers as it found them, or closes
the last one of them. This is what `Keeps` states of a rule, together with what it is needed for: the
rule is not stopped by a watch that agrees to every step between two exact states.
-/

namespace ActorLang

variable {P α β : Type}

namespace TokenStream

/-- A stream is what is left of the tokens, and it remembers the closers of the openers that are
unmatched among the tokens before, innermost first. -/
def Exact (tokens : List (Token P)) (s : TokenStream P) : Prop :=
  ∃ taken, tokens = taken ++ (s.ahead ++ [s.final]) ∧
    TokenKind.LeavesOpen (taken.map Token.kind) s.unclosed.reverse

/-- A token is taken between two exact states. It is not the end of the input, and if it closes
anything, it closes what was opened last. -/
structure ExactStep (tokens : List (Token P)) (s : TokenStream P) : Prop where
  before : s.Exact tokens
  after : s.next.2.Exact tokens
  inside : s.current.kind ≠ .eof
  own : s.current.kind.closes = true → s.unclosed.head? = some s.current.kind

structure Nested (tokens : List (Token P)) (stack : List TokenKind) (s : TokenStream P) :
    Prop where
  unclosed : s.unclosed = stack
  run : ∃ taken, tokens = taken ++ (s.ahead ++ [s.final]) ∧
    TokenKind.nestAll? (taken.map Token.kind) [] = some stack

namespace Nested

variable {tokens : List (Token P)} {stack stack' : List TokenKind} {s : TokenStream P}

theorem exact (h : s.Nested tokens stack) : s.Exact tokens := by
  obtain ⟨taken, htokens, hrun⟩ := h.run
  refine ⟨taken, htokens, ?_⟩
  rw [h.unclosed]
  exact TokenKind.leavesOpen_of_nestAll? hrun

theorem next (h : s.Nested tokens stack) (hs : s.current.kind ≠ .eof)
    (hnest : s.current.kind.nest? stack = some stack') : s.next.2.Nested tokens stack' := by
  have htakes := Takes.next hs
  obtain ⟨taken, htokens, hrun⟩ := h.run
  refine ⟨?_, taken ++ [s.current], ?_, ?_⟩
  · rw [htakes.unclosed, h.unclosed]
    exact TokenKind.openAfter_of_nest? hnest
  · rw [htokens, htakes.ahead, htakes.final]
    simp
  · rw [List.map_append, TokenKind.nestAll?_append, hrun, Option.bind_some, List.map_singleton,
      TokenKind.nestAll?, hnest]
    rfl

/-- Whatever may be taken while a stack is tracked is taken between exact states. -/
theorem step (h : s.Nested tokens stack) (hs : s.current.kind ≠ .eof)
    (hnest : s.current.kind.nest? stack = some stack') : s.ExactStep tokens := by
  refine ⟨h.exact, (h.next hs hnest).exact, hs, fun hcloses => ?_⟩
  rcases TokenKind.nest?_eq_some.1 hnest with ⟨-, hstack⟩ | ⟨hopens, -⟩
  · rw [h.unclosed, hstack]
    rfl
  · rw [hcloses] at hopens
    cases hopens

end Nested

end TokenStream

namespace Parser

def watchedTake (watch : TokenStream P → Bool) : Parser P (Token P) := fun s =>
  if watch s = true then take s else fail (.internal "token refused") s

/-- A watch agrees to every step between two exact states. -/
def Tolerant (watch : TokenStream P → Bool) (tokens : List (Token P)) : Prop :=
  ∀ s, s.ExactStep tokens → watch s = true

def ExpectedAtEnd (tokens : List (Token P)) (expected : List TokenKind) : Prop :=
  ∃ (s : TokenStream P) (stack : List TokenKind), s.Nested tokens stack ∧
    s.current.kind = .eof ∧ ∀ c, c.closes = true → (c ∈ expected ↔ c ∈ stack)

/-- Two parsers do the same on a stream. They end with a given stack, or what they expect at the end
of the input is right. -/
structure Keeps (tokens : List (Token P)) (stack : List TokenKind) (p q : Parser P α)
    (s : TokenStream P) : Prop where
  eq : p s = q s
  nested : ∀ a s', q s = .ok (a, s') → s'.Nested tokens stack
  blamed : ∀ expected lexeme pos, q s = .error ⟨.unexpected expected .eof lexeme, pos⟩ →
    ExpectedAtEnd tokens expected

namespace Keeps

open TokenStream

variable {tokens : List (Token P)} {stack stack' : List TokenKind} {p q p' q' : Parser P α}
  {s : TokenStream P}

/-! ## Combinators -/

theorem congr {s' : TokenStream P} (h : Keeps tokens stack p' q' s') (hp : p s = p' s')
    (hq : q s = q' s') : Keeps tokens stack p q s := by
  refine ⟨hp.trans (h.eq.trans hq.symm), fun a s₁ ha => ?_, fun ks x pos he => ?_⟩
  · exact h.nested a s₁ (hq ▸ ha)
  · exact h.blamed ks x pos (hq ▸ he)

theorem pure (a : α) (hs : s.Nested tokens stack) :
    Keeps tokens stack (Pure.pure a) (Pure.pure a) s := by
  refine ⟨rfl, fun b s' hb => ?_, fun _ _ _ he => nomatch he⟩
  obtain ⟨-, rfl⟩ : a = b ∧ s = s' := by simpa using hb
  exact hs

/-- The stack that the first part ends with is the one that the second part begins with. -/
theorem bind {f g : α → Parser P β} (hp : Keeps tokens stack p q s)
    (h : ∀ a s₁, s₁.Nested tokens stack → Keeps tokens stack' (f a) (g a) s₁) :
    Keeps tokens stack' (p >>= f) (q >>= g) s := by
  cases hq : q s with
  | ok r =>
      obtain ⟨a, s₁⟩ := r
      apply (h a s₁ (hp.nested a s₁ hq)).congr
      · exact bind_of_eq_ok (hp.eq.trans hq)
      · exact bind_of_eq_ok hq
  | error e =>
      have herror := bind_of_eq_error (f := g) hq
      refine ⟨(bind_of_eq_error (hp.eq.trans hq)).trans herror.symm, ?_, ?_⟩
      · intro b s' hb
        rw [herror] at hb
        cases hb
      · intro ks x pos he
        rw [herror] at he
        rw [Except.error.inj he] at hq
        exact hp.blamed ks x pos hq

theorem map (h : Keeps tokens stack p q s) (f : α → β) :
    Keeps tokens stack (p >>= fun a => Pure.pure (f a)) (q >>= fun a => Pure.pure (f a)) s :=
  h.bind fun a _ hs₁ => pure (f a) hs₁

theorem peek {F F' : Token P → Parser P α} (h : Keeps tokens stack (F s.current) (F' s.current) s) :
    Keeps tokens stack (Parser.peek >>= F) (Parser.peek >>= F') s :=
  h.congr rfl rfl

theorem remaining {F F' : Nat → Parser P α}
    (h : Keeps tokens stack (F s.ahead.length) (F' s.ahead.length) s) :
    Keeps tokens stack (Parser.remaining >>= F) (Parser.remaining >>= F') s :=
  h.congr rfl rfl

theorem get {F F' : TokenStream P → Parser P α} (h : Keeps tokens stack (F s) (F' s) s) :
    Keeps tokens stack (MonadState.get >>= F) (MonadState.get >>= F') s :=
  h.congr rfl rfl

theorem lift {x : Except (ParseError P) β} {b : β} (hx : x = .ok b) {F F' : β → Parser P α}
    (h : Keeps tokens stack (F b) (F' b) s) :
    Keeps tokens stack (liftM x >>= F) (liftM x >>= F') s :=
  h.congr (lift_bind hx F s) (lift_bind hx F' s)

theorem ite {c : Prop} [Decidable c] (h : Keeps tokens stack p q s)
    (h' : Keeps tokens stack p' q' s) :
    Keeps tokens stack (if c then p else p') (if c then q else q') s := by
  by_cases hc : c
  · rwa [if_pos hc, if_pos hc]
  · rwa [if_neg hc, if_neg hc]

theorem nextIs {k : TokenKind} (h : s.current.kind = k → Keeps tokens stack p q s)
    (h' : Keeps tokens stack p' q' s) :
    Keeps tokens stack (Parser.nextIs k >>= fun b => if b = true then p else p')
      (Parser.nextIs k >>= fun b => if b = true then q else q') s := by
  by_cases hk : s.current.kind = k
  · exact (h hk).congr (by simp [hk]) (by simp [hk])
  · exact h'.congr (by simp [hk]) (by simp [hk])

theorem fail {cause : Cause} (hcause : ∀ ks k x, cause ≠ .unexpected ks k x) :
    Keeps tokens stack (Parser.fail cause : Parser P α) (Parser.fail cause) s := by
  refine ⟨rfl, fun _ _ ha => (nomatch ha), fun ks x pos he => ?_⟩
  obtain ⟨rfl, -⟩ := ParseError.mk.inj (Except.error.inj he)
  exact absurd rfl (hcause ks .eof x)

/-- At the end of the input all closers on the stack are expected, and no others. -/
theorem unexpectedOr {ks : List TokenKind} (hs : s.Nested tokens stack)
    (hks : ∀ c ∈ ks, c.closes = true → c ∈ stack) :
    Keeps tokens stack' (Parser.unexpected ks : Parser P α) (Parser.unexpected ks) s := by
  refine ⟨rfl, fun _ _ ha => (nomatch ha), fun expected x pos he => ?_⟩
  simp only [Parser.unexpected, mismatch, Except.error.injEq, ParseError.mk.injEq,
    Cause.unexpected.injEq] at he
  obtain ⟨⟨rfl, heof, -⟩, -⟩ := he
  refine ⟨s, stack, hs, heof, fun c hc => ?_⟩
  rw [TokenKind.mem_listed, if_pos heof, List.mem_append, hs.unclosed]
  constructor
  · rintro (hmem | hmem)
    · exact hks c hmem hc
    · exact hmem
  · exact .inr

theorem unexpected {ks : List TokenKind} (hs : s.Nested tokens stack)
    (hks : ∀ c ∈ ks, c.closes = false) :
    Keeps tokens stack' (Parser.unexpected ks : Parser P α) (Parser.unexpected ks) s := by
  refine unexpectedOr hs fun c hc hcloses => ?_
  rw [hks c hc] at hcloses
  cases hcloses

theorem expectEnd {others : List TokenKind} (hs : s.Nested tokens stack)
    (hothers : ∀ c ∈ others, c.closes = false) :
    Keeps tokens stack (Parser.expectEnd others) (Parser.expectEnd others) s := by
  refine nextIs (fun _ => pure () hs) (unexpected hs ?_)
  rw [List.forall_mem_append]
  exact ⟨hothers, by decide⟩

theorem spanning {others : List TokenKind} (h : Keeps tokens stack p q s)
    (hothers : ∀ c ∈ others, c.closes = false) :
    Keeps tokens stack (Parser.spanning others p) (Parser.spanning others q) s :=
  h.bind fun a _ hs₁ => (expectEnd hs₁ hothers).map fun _ => a

theorem rounds {go : TokenKind → Bool}
    (h : ∀ s, s.Nested tokens stack → Keeps tokens stack p q s) (n : Nat)
    (hs : s.Nested tokens stack) :
    Keeps tokens stack (Parser.rounds go p n) (Parser.rounds go q n) s := by
  induction n generalizing s with
  | zero => exact pure [] hs
  | succ n ih =>
      have hround := (h s hs).bind fun a _ hs₁ => (ih hs₁).map (a :: ·)
      exact peek (ite hround (pure [] hs))

theorem repeated {go : TokenKind → Bool}
    (h : ∀ s, s.Nested tokens stack → Keeps tokens stack p q s) (hs : s.Nested tokens stack) :
    Keeps tokens stack (Parser.repeated go p) (Parser.repeated go q) s :=
  remaining (rounds h s.ahead.length hs)

/-! ## Tokens -/

section Rules

variable {watch : TokenStream P → Bool} (hwatch : Tolerant watch tokens)

include hwatch

theorem watchedTake {k : TokenKind} (hs : s.Nested tokens stack) (hk : s.current.kind = k)
    (heof : k ≠ .eof) (hnest : k.nest? stack = some stack') :
    Keeps tokens stack' (watchedTake watch) Parser.take s := by
  subst hk
  have hyes : watch s = true := hwatch s (hs.step heof hnest)
  refine ⟨if_pos hyes, fun t s' ht => ?_, fun _ _ _ he => nomatch he⟩
  obtain rfl : s.next.2 = s' := congrArg Prod.snd (Except.ok.inj ht)
  exact hs.next heof hnest

theorem take {k : TokenKind} {F F' : Token P → Parser P α} (hs : s.Nested tokens stack)
    (hk : s.current.kind = k) (heof : k ≠ .eof) {stack₁ : List TokenKind}
    (hnest : k.nest? stack = some stack₁)
    (h : ∀ t s₁, s₁.Nested tokens stack₁ → Keeps tokens stack' (F t) (F' t) s₁) :
    Keeps tokens stack' (Parser.watchedTake watch >>= F) (Parser.take >>= F') s :=
  (watchedTake hwatch hs hk heof hnest).bind h

/-- Taking an opener puts its closer on the stack, and taking a closer removes it. -/
theorem expectOr {others : List TokenKind} {k : TokenKind} (hs : s.Nested tokens stack)
    (hothers : ∀ c ∈ others, c.closes = false) (heof : k ≠ .eof)
    (hnest : k.nest? stack = some stack') :
    Keeps tokens stack' (Stepwise.expectOr (Parser.watchedTake watch) others k)
      (Parser.expectOr others k) s := by
  refine nextIs (fun hk => watchedTake hwatch hs hk heof hnest) (unexpectedOr hs ?_)
  intro c hc hcloses
  rcases List.mem_append.1 hc with hc | hc
  · rw [hothers c hc] at hcloses
    cases hcloses
  · obtain rfl := List.mem_singleton.1 hc
    -- A closer is expected only where it is on top of the stack.
    rcases TokenKind.nest?_eq_some.1 hnest with ⟨-, rfl⟩ | ⟨hopens, -⟩
    · exact List.mem_cons_self
    · rw [hcloses] at hopens
      cases hopens

theorem expect {k : TokenKind} (hs : s.Nested tokens stack) (heof : k ≠ .eof)
    (hnest : k.nest? stack = some stack') :
    Keeps tokens stack' (Stepwise.expect (Parser.watchedTake watch) k) (Parser.expect k) s :=
  expectOr hwatch hs (by simp) heof hnest

/-! ## Lists divided by commas -/

theorem itemsAfterComma (h : ∀ s, s.Nested tokens stack → Keeps tokens stack p q s) (n : Nat)
    (hs : s.Nested tokens stack) :
    Keeps tokens stack (Stepwise.itemsAfterComma (Parser.watchedTake watch) p n)
      (Parser.itemsAfterComma q n) s := by
  induction n generalizing s with
  | zero => exact pure [] hs
  | succ n ih =>
      refine nextIs (fun hk => ?_) (pure [] hs)
      refine take hwatch hs hk (by decide) rfl fun _ s₁ hs₁ => ?_
      exact (h s₁ hs₁).bind fun a s₂ hs₂ => (ih hs₂).map (a :: ·)

theorem commaSeparated (h : ∀ s, s.Nested tokens stack → Keeps tokens stack p q s)
    (hs : s.Nested tokens stack) :
    Keeps tokens stack (Stepwise.commaSeparated (Parser.watchedTake watch) p)
      (Parser.commaSeparated q) s := by
  refine (h s hs).bind fun a s₁ hs₁ => ?_
  exact remaining ((itemsAfterComma hwatch h s₁.ahead.length hs₁).map (a :: ·))

/-! ## Names, artifacts and argument maps -/

theorem ident (hs : s.Nested tokens stack) :
    Keeps tokens stack (Stepwise.ident (Parser.watchedTake watch)) Parser.ident s :=
  (expect hwatch hs (by decide) rfl).map _

theorem typeName (hs : s.Nested tokens stack) :
    Keeps tokens stack (Stepwise.typeName (Parser.watchedTake watch)) Parser.typeName s :=
  (expect hwatch hs (by decide) rfl).map _

theorem literal (hs : s.Nested tokens stack) :
    Keeps tokens stack (Stepwise.literal (Parser.watchedTake watch)) Parser.literal s :=
  (expect hwatch hs (by decide) rfl).map _

theorem quotedIdent (hs : s.Nested tokens stack) :
    Keeps tokens stack (Stepwise.quotedIdent (Parser.watchedTake watch)) Parser.quotedIdent s := by
  refine (expect hwatch hs (by decide) rfl).bind fun _ _ hs₁ => ?_
  refine (ident hwatch hs₁).bind fun _ _ hs₂ => ?_
  exact (expect hwatch hs₂ (by decide) rfl).map _

theorem identsInParens (hs : s.Nested tokens stack) :
    Keeps tokens stack (Stepwise.identsInParens (Parser.watchedTake watch))
      Parser.identsInParens s := by
  refine (expect hwatch hs (by decide) rfl).bind fun _ s₁ hs₁ => ?_
  have hclose : ∀ (ids : List (Ident P)) s₂, s₂.Nested tokens (.rparen :: stack) →
      Keeps tokens stack
        (Stepwise.expectOr (Parser.watchedTake watch)
          (if ids.isEmpty then [.ident] else [.comma]) .rparen >>= fun _ => Pure.pure ids)
        (Parser.expectOr (if ids.isEmpty then [.ident] else [.comma]) .rparen >>= fun _ =>
          Pure.pure ids) s₂ := by
    intro ids s₂ hs₂
    refine (expectOr hwatch hs₂ ?_ (by decide) rfl).map _
    split <;> decide
  apply nextIs
  · intro _
    exact (commaSeparated hwatch (fun _ => ident hwatch) hs₁).bind hclose
  · exact (pure [] hs₁).bind hclose

theorem reference (hs : s.Nested tokens stack) :
    Keeps tokens stack (Stepwise.reference (Parser.watchedTake watch)) Parser.reference s := by
  refine peek ?_
  cases s.current.kind with
  | ident => exact (ident hwatch hs).map _
  | str => exact (literal hwatch hs).map _
  | _ => exact unexpected hs (by decide)

/-- The type and the source of a new tool or artifact close what its keyword has opened. -/
theorem typeAndSource (hs : s.Nested tokens (.rparen :: stack)) :
    Keeps tokens stack (Stepwise.typeAndSource (Parser.watchedTake watch))
      Parser.typeAndSource s := by
  refine (typeName hwatch hs).bind fun _ _ hs₁ => ?_
  refine (expect hwatch hs₁ (by decide) rfl).bind fun _ _ hs₂ => ?_
  refine (reference hwatch hs₂).bind fun _ _ hs₃ => ?_
  exact (expect hwatch hs₃ (by decide) rfl).map _

theorem artifact (hs : s.Nested tokens stack) :
    Keeps tokens stack (Stepwise.artifact (Parser.watchedTake watch)) Parser.artifact s := by
  refine peek ?_
  cases hk : s.current.kind with
  | artifactFactory =>
      refine take hwatch hs hk (by decide) rfl fun _ _ hs₁ => ?_
      exact (typeAndSource hwatch hs₁).map _
  | ident => exact (ident hwatch hs).map _
  | _ => exact unexpected hs (by decide)

theorem mapValue (hs : s.Nested tokens stack) :
    Keeps tokens stack (Stepwise.mapValue (Parser.watchedTake watch)) Parser.mapValue s := by
  refine peek ?_
  cases s.current.kind with
  | artifactFactory | ident => exact (artifact hwatch hs).map _
  | typeName => exact (typeName hwatch hs).map _
  | quote => exact (quotedIdent hwatch hs).map _
  | _ => exact unexpected hs (by decide)

theorem mapItem (hs : s.Nested tokens stack) :
    Keeps tokens stack (Stepwise.mapItem (Parser.watchedTake watch)) Parser.mapItem s := by
  refine (quotedIdent hwatch hs).bind fun _ _ hs₁ => ?_
  refine nextIs (fun hk => ?_) (pure _ hs₁)
  refine take hwatch hs₁ hk (by decide) rfl fun _ _ hs₂ => ?_
  exact (mapValue hwatch hs₂).map _

theorem argMap (hs : s.Nested tokens stack) :
    Keeps tokens stack (Stepwise.argMap (Parser.watchedTake watch)) Parser.argMap s := by
  refine (expect hwatch hs (by decide) rfl).bind fun _ _ hs₁ => ?_
  refine (commaSeparated hwatch (fun _ => mapItem hwatch) hs₁).bind fun _ _ hs₂ => ?_
  exact (expectOr hwatch hs₂ (by decide) (by decide) rfl).map _

theorem mapInParens (hs : s.Nested tokens stack) :
    Keeps tokens stack (Stepwise.mapInParens (Parser.watchedTake watch)) Parser.mapInParens s := by
  refine (expect hwatch hs (by decide) rfl).bind fun _ _ hs₁ => ?_
  refine (argMap hwatch hs₁).bind fun _ _ hs₂ => ?_
  exact (expect hwatch hs₂ (by decide) rfl).map _

/-! ## Expressions and actors -/

theorem verdict (hs : s.Nested tokens stack) :
    Keeps tokens stack (Stepwise.verdict (Parser.watchedTake watch)) Parser.verdict s := by
  refine (expect hwatch hs (by decide) rfl).bind fun t _ hs₁ => ?_
  cases Verdict.ofText? t.text with
  | none => exact fail (by simp)
  | some v => exact pure v hs₁

section Nested

variable {e e' : Tier → Parser P (Expr P)} {a a' : Parser P (Actor P)}
  (he : ∀ tier stack (s : TokenStream P), s.Nested tokens stack →
    Keeps tokens stack (e tier) (e' tier) s)
  (ha : ∀ stack (s : TokenStream P), s.Nested tokens stack → Keeps tokens stack a a' s)

include he

theorem exprHead (hs : s.Nested tokens stack) :
    Keeps tokens stack (Stepwise.exprHead (Parser.watchedTake watch) e) (Parser.exprHead e') s := by
  refine peek ?_
  cases hk : s.current.kind with
  | not =>
      refine take hwatch hs hk (by decide) rfl fun _ s₁ hs₁ => ?_
      exact (he .chain stack s₁ hs₁).map _
  | instanceOf =>
      refine take hwatch hs hk (by decide) rfl fun _ _ hs₁ => ?_
      refine (expect hwatch hs₁ (by decide) rfl).bind fun _ _ hs₂ => ?_
      refine (ident hwatch hs₂).bind fun _ _ hs₃ => ?_
      refine (expect hwatch hs₃ (by decide) rfl).bind fun _ _ hs₄ => ?_
      refine (typeName hwatch hs₄).bind fun _ _ hs₅ => ?_
      exact (expect hwatch hs₅ (by decide) rfl).map _
  | elementOf =>
      refine take hwatch hs hk (by decide) rfl fun _ _ hs₁ => ?_
      refine (expect hwatch hs₁ (by decide) rfl).bind fun _ _ hs₂ => ?_
      refine (ident hwatch hs₂).bind fun _ _ hs₃ => ?_
      refine (expect hwatch hs₃ (by decide) rfl).bind fun _ _ hs₄ => ?_
      refine (expect hwatch hs₄ (by decide) rfl).bind fun _ _ hs₅ => ?_
      refine (commaSeparated hwatch (fun _ => verdict hwatch) hs₅).bind fun _ _ hs₆ => ?_
      refine (expectOr hwatch hs₆ (by decide) (by decide) rfl).bind fun _ _ hs₇ => ?_
      exact (expect hwatch hs₇ (by decide) rfl).map _
  | ident => exact (ident hwatch hs).map _
  | lparen =>
      refine take hwatch hs hk (by decide) rfl fun _ s₁ hs₁ => ?_
      refine (he .chain _ s₁ hs₁).bind fun _ _ hs₂ => ?_
      exact (expectOr hwatch hs₂ (by decide) (by decide) rfl).map _
  | _ => exact unexpected hs (by decide)

theorem operatorsAfter (n : Nat) (left : Expr P) (hs : s.Nested tokens stack) :
    Keeps tokens stack (Stepwise.operatorsAfter (Parser.watchedTake watch) (e .operand) n left)
      (Parser.operatorsAfter (e' .operand) n left) s := by
  induction n generalizing left s with
  | zero => exact pure left hs
  | succ n ih =>
      refine nextIs (fun hk => ?_) (pure left hs)
      refine take hwatch hs hk (by decide) rfl fun t s₁ hs₁ => ?_
      have hop : Keeps tokens stack (operator t) (operator t) s₁ := by
        unfold operator
        split
        · exact pure _ hs₁
        · exact fail (by simp)
      refine hop.bind fun _ s₂ hs₂ => ?_
      exact (he .operand stack s₂ hs₂).bind fun _ _ hs₃ => ih _ hs₃

theorem exprOf (tier : Tier) (hs : s.Nested tokens stack) :
    Keeps tokens stack (Stepwise.exprOf (Parser.watchedTake watch) e tier)
      (Parser.exprOf e' tier) s := by
  cases tier with
  | chain =>
      refine (exprHead hwatch he hs).bind fun left s₁ hs₁ => ?_
      exact remaining (operatorsAfter hwatch he s₁.ahead.length left hs₁)
  | operand => exact (exprHead hwatch he hs).map id

omit he
include ha

/-- Two actors close what is opened in front of them. -/
theorem actorPair (hs : s.Nested tokens (.rparen :: stack)) :
    Keeps tokens stack (Stepwise.actorPair (Parser.watchedTake watch) a) (Parser.actorPair a')
      s := by
  refine (ha _ s hs).bind fun _ _ hs₁ => ?_
  refine (expect hwatch hs₁ (by decide) rfl).bind fun _ s₂ hs₂ => ?_
  refine (ha _ s₂ hs₂).bind fun _ _ hs₃ => ?_
  exact (expect hwatch hs₃ (by decide) rfl).map _

theorem factoryActor (pos : P) (hs : s.Nested tokens (.rparen :: stack)) :
    Keeps tokens stack (Stepwise.factoryActor (Parser.watchedTake watch) a pos)
      (Parser.factoryActor a' pos) s := by
  refine nextIs (fun _ => ?_) (peek (ite ?_ (unexpected hs (by decide))))
  · exact (typeAndSource hwatch hs).map _
  · refine (ha _ s hs).bind fun _ _ hs₁ => ?_
    exact (expect hwatch hs₁ (by decide) rfl).map _

theorem identityTarget (pos : P) (hs : s.Nested tokens stack) :
    Keeps tokens stack (Stepwise.identityTarget (Parser.watchedTake watch) a pos)
      (Parser.identityTarget a' pos) s := by
  refine nextIs (fun _ => ?_) (peek (ite ?_ (unexpected hs (by decide))))
  · exact (argMap hwatch hs).map _
  · exact (ha _ s hs).map _

omit ha

theorem functionCall (hs : s.Nested tokens stack) :
    Keeps tokens stack (Stepwise.functionCall (Parser.watchedTake watch)) Parser.functionCall
      s := by
  refine (ident hwatch hs).bind fun _ _ hs₁ => ?_
  exact (identsInParens hwatch hs₁).map _

theorem joiner (pos : P) (hs : s.Nested tokens stack) :
    Keeps tokens stack (Stepwise.joiner (Parser.watchedTake watch) pos) (Parser.joiner pos) s := by
  refine (expect hwatch hs (by decide) rfl).bind fun _ _ hs₁ => ?_
  refine (typeName hwatch hs₁).bind fun _ _ hs₂ => ?_
  refine (expect hwatch hs₂ (by decide) rfl).bind fun _ _ hs₃ => ?_
  refine (argMap hwatch hs₃).bind fun _ _ hs₄ => ?_
  refine (expect hwatch hs₄ (by decide) rfl).bind fun _ _ hs₅ => ?_
  refine (quotedIdent hwatch hs₅).bind fun _ _ hs₆ => ?_
  exact (expect hwatch hs₆ (by decide) rfl).map _

include he ha

theorem actorOf (hs : s.Nested tokens stack) :
    Keeps tokens stack (Stepwise.actorOf (Parser.watchedTake watch) a (e .chain))
      (Parser.actorOf a' (e' .chain)) s := by
  refine peek ?_
  cases hk : s.current.kind with
  | actorFactory =>
      refine take hwatch hs hk (by decide) rfl fun _ _ hs₁ => ?_
      exact factoryActor hwatch ha _ hs₁
  | ident =>
      exact (ite (functionCall hwatch hs) ((ident hwatch hs).map _)).congr rfl rfl
  | joiner =>
      refine take hwatch hs hk (by decide) rfl fun _ _ hs₁ => ?_
      exact joiner hwatch _ hs₁
  | copy | rename =>
      refine take hwatch hs hk (by decide) rfl fun _ _ hs₁ => ?_
      exact (mapInParens hwatch hs₁).map _
  | testSpecToSpec | specToTestSpec =>
      exact take hwatch hs hk (by decide) rfl fun _ _ hs₁ => pure _ hs₁
  | identity =>
      refine take hwatch hs hk (by decide) rfl fun _ _ hs₁ => ?_
      refine (expect hwatch hs₁ (by decide) rfl).bind fun _ _ hs₂ => ?_
      refine (identityTarget hwatch ha _ hs₂).bind fun _ _ hs₃ => ?_
      exact (expect hwatch hs₃ (by decide) rfl).map _
  | sequence | parallel =>
      refine take hwatch hs hk (by decide) rfl fun _ _ hs₁ => ?_
      refine (expect hwatch hs₁ (by decide) rfl).bind fun _ _ hs₂ => ?_
      exact (actorPair hwatch ha hs₂).map _
  | ite =>
      refine take hwatch hs hk (by decide) rfl fun _ _ hs₁ => ?_
      refine (expect hwatch hs₁ (by decide) rfl).bind fun _ s₂ hs₂ => ?_
      refine (he .chain _ s₂ hs₂).bind fun _ _ hs₃ => ?_
      refine (expectOr hwatch hs₃ (by decide) (by decide) rfl).bind fun _ _ hs₄ => ?_
      exact (actorPair hwatch ha hs₄).map _
  | iterate =>
      refine take hwatch hs hk (by decide) rfl fun _ _ hs₁ => ?_
      refine (expect hwatch hs₁ (by decide) rfl).bind fun _ _ hs₂ => ?_
      refine (quotedIdent hwatch hs₂).bind fun _ _ hs₃ => ?_
      refine (expect hwatch hs₃ (by decide) rfl).bind fun _ s₄ hs₄ => ?_
      refine (ha _ s₄ hs₄).bind fun _ _ hs₅ => ?_
      exact (expect hwatch hs₅ (by decide) rfl).map _
  | lparen =>
      refine take hwatch hs hk (by decide) rfl fun _ s₁ hs₁ => ?_
      refine (ha _ s₁ hs₁).bind fun _ _ hs₂ => ?_
      exact (expect hwatch hs₂ (by decide) rfl).map _
  | _ => exact unexpected hs (by decide)

end Nested

theorem exprAt (limit room : Nat) (tier : Tier) (hs : s.Nested tokens stack) :
    Keeps tokens stack (Stepwise.exprAt (Parser.watchedTake watch) limit room tier)
      (Parser.exprAt limit room tier) s := by
  induction room generalizing tier stack s with
  | zero => exact fail (by simp)
  | succ room ih => exact exprOf hwatch (fun tier _ _ => ih tier) tier hs

theorem actor (limit room : Nat) (hs : s.Nested tokens stack) :
    Keeps tokens stack (Stepwise.actor (Parser.watchedTake watch) limit room)
      (Parser.actor limit room) s := by
  induction room generalizing stack s with
  | zero => exact fail (by simp)
  | succ room ih =>
      exact actorOf hwatch (fun tier _ _ => exprAt hwatch limit room tier) (fun _ _ => ih) hs

/-! ## Statements and programs -/

omit hwatch in
/-- The form of a value is chosen without taking any token. -/
theorem assignableForm (limits : Limits) (room : Nat) (hs : s.Nested tokens stack) :
    Keeps tokens stack (Parser.assignableForm limits room) (Parser.assignableForm limits room)
      s := by
  obtain ⟨m, hm, -, -⟩ := s.exists_parens
  by_cases hroom : m ≤ room
  · have hrun : parenRun limits.depth room s.ahead = .ok m := parenRun_eq_ok hm hroom
    refine get (lift hrun ?_)
    unfold formBehind
    cases s.kindAt m with
    | not | instanceOf | elementOf => exact pure _ hs
    | ident => exact ite (fail (by simp)) (ite (pure _ hs) (pure _ hs))
    | artifactFactory | lbrace | str => exact ite (pure _ hs) (pure _ hs)
    | _ => exact ite (pure _ hs) (ite (pure _ hs) (unexpected hs (by decide)))
  · obtain ⟨t, -, hrun⟩ := parenRun_eq_error limits.depth hm (Nat.lt_of_not_le hroom)
    have herror : Parser.assignableForm limits room s = .error ⟨.nesting limits.depth, t.pos⟩ := by
      simp only [Parser.assignableForm, get_bind, hrun]
      rfl
    exact ⟨rfl, by simp [herror], by simp [herror]⟩

theorem assignable (limits : Limits) (room : Nat) (hs : s.Nested tokens stack) :
    Keeps tokens stack (Stepwise.assignable (Parser.watchedTake watch) limits room)
      (Parser.assignable limits room) s := by
  refine (assignableForm limits room hs).bind fun form _ hs₁ => ?_
  cases form with
  | expression => exact (exprAt hwatch limits.depth room .chain hs₁).map _
  | artifact => exact (artifact hwatch hs₁).map _
  | argMap => exact (argMap hwatch hs₁).map _
  | actor => exact (actor hwatch limits.depth room hs₁).map _
  | literal => exact (literal hwatch hs₁).map _

theorem inputs (hs : s.Nested tokens stack) :
    Keeps tokens stack (Stepwise.inputs (Parser.watchedTake watch)) Parser.inputs s := by
  refine peek ?_
  cases s.current.kind with
  | ident => exact (ident hwatch hs).map _
  | lbrace => exact (argMap hwatch hs).map _
  | _ => exact unexpected hs (by decide)

theorem statement (limits : Limits) (hs : s.Nested tokens stack) :
    Keeps tokens stack (Stepwise.statement (Parser.watchedTake watch) limits)
      (Parser.statement limits) s := by
  refine peek ?_
  cases hk : s.current.kind with
  | ident =>
      refine (ident hwatch hs).bind fun _ _ hs₁ => ?_
      refine (expect hwatch hs₁ (by decide) rfl).bind fun _ _ hs₂ => ?_
      exact (assignable hwatch limits limits.depth hs₂).map _
  | print =>
      refine take hwatch hs hk (by decide) rfl fun _ _ hs₁ => ?_
      refine (actor hwatch limits.depth limits.depth hs₁).bind fun _ _ hs₂ => ?_
      exact (expect hwatch hs₂ (by decide) rfl).map _
  | execute =>
      refine take hwatch hs hk (by decide) rfl fun _ _ hs₁ => ?_
      refine (actor hwatch limits.depth limits.depth hs₁).bind fun _ _ hs₂ => ?_
      refine (expect hwatch hs₂ (by decide) rfl).bind fun _ _ hs₃ => ?_
      refine (inputs hwatch hs₃).bind fun _ _ hs₄ => ?_
      exact (expect hwatch hs₄ (by decide) rfl).map _
  | ret =>
      refine take hwatch hs hk (by decide) rfl fun _ _ hs₁ => ?_
      exact (ident hwatch hs₁).map _
  | _ => exact unexpected hs (by decide)

theorem line (limits : Limits) (hs : s.Nested tokens stack) :
    Keeps tokens stack
      (Stepwise.line (Parser.watchedTake watch)
        (Stepwise.statement (Parser.watchedTake watch) limits))
      (Parser.line (Parser.statement limits)) s := by
  refine (statement hwatch limits hs).bind fun _ _ hs₁ => ?_
  exact (expect hwatch hs₁ (by decide) rfl).map _

theorem block (limits : Limits) (hs : s.Nested tokens stack) :
    Keeps tokens stack (Stepwise.block (Parser.watchedTake watch) limits)
      (Parser.block limits) s :=
  peek ((repeated (fun _ => line hwatch limits) hs).map _)

theorem function (limits : Limits) (hs : s.Nested tokens stack) :
    Keeps tokens stack (Stepwise.function (Parser.watchedTake watch) limits)
      (Parser.function limits) s := by
  refine (expect hwatch hs (by decide) rfl).bind fun _ _ hs₁ => ?_
  refine (ident hwatch hs₁).bind fun _ _ hs₂ => ?_
  refine (identsInParens hwatch hs₂).bind fun _ _ hs₃ => ?_
  refine (expect hwatch hs₃ (by decide) rfl).bind fun _ _ hs₄ => ?_
  refine (block hwatch limits hs₄).bind fun _ _ hs₅ => ?_
  exact (expectOr hwatch hs₅ (by decide) (by decide) rfl).map _

theorem program (limits : Limits) (hs : s.Nested tokens stack) :
    Keeps tokens stack (Stepwise.program (Parser.watchedTake watch) limits)
      (Parser.program limits) s := by
  refine spanning ?_ (by decide)
  refine (repeated (fun _ => function hwatch limits) hs).bind fun _ _ hs₁ => ?_
  exact (block hwatch limits hs₁).map _

theorem wholeActor (limits : Limits) (hs : s.Nested tokens stack) :
    Keeps tokens stack (Stepwise.wholeActor (Parser.watchedTake watch) limits)
      (Parser.wholeActor limits) s :=
  (actor hwatch limits.depth limits.depth hs).spanning (by decide)

theorem wholeExpr (limits : Limits) (hs : s.Nested tokens stack) :
    Keeps tokens stack (Stepwise.wholeExpr (Parser.watchedTake watch) limits)
      (Parser.wholeExpr limits) s :=
  (exprAt hwatch limits.depth limits.depth .chain hs).spanning (by decide)

end Rules

end Keeps

end Parser

/-! ## Whole inputs -/

/-- What a parser, which can also run under a watch, does with the delimiters of its input. -/
structure DelimitersTracked [Inhabited P] (p : Parser P α)
    (watched : (TokenStream P → Bool) → Parser P α) (tokens : List (Token P)) : Prop where
  /-- The parse begins with nothing open. -/
  start : ∃ s, TokenStream.ofTokens tokens = .ok s ∧ s.Exact tokens ∧ s.unclosed = []
  /-- Every token is taken between two exact states, and a closer is the one that is missing most
  recently. -/
  steps : ∀ watch, Parser.Tolerant watch tokens → (watched watch).run tokens = p.run tokens
  /-- A parse that succeeds leaves nothing open. -/
  success : ∀ s a s', TokenStream.ofTokens tokens = .ok s → p s = .ok (a, s') →
    s'.Exact tokens ∧ s'.unclosed = []
  /-- The closers that are expected at the end are the missing ones. -/
  atEnd : ∀ expected lexeme pos,
    p.run tokens = .error ⟨.unexpected expected .eof lexeme, pos⟩ →
      ∀ c, c.closes = true → (c ∈ expected ↔ TokenKind.Unmatched (tokens.map Token.kind) c)

/-- At the end of the input its only end-of-input token is at the cursor, which opens nothing. -/
theorem Parser.ExpectedAtEnd.iff_unmatched {tokens : List (Token P)} {expected : List TokenKind}
    (h : ExpectedAtEnd tokens expected) (ht : Terminated tokens) {c : TokenKind}
    (hc : c.closes = true) : c ∈ expected ↔ TokenKind.Unmatched (tokens.map Token.kind) c := by
  obtain ⟨s, stack, hs, heof, hexpected⟩ := h
  obtain ⟨taken, htokens, hrun⟩ := hs.run
  obtain ⟨body, last, rfl, -, hbody⟩ := ht
  have hahead : s.ahead = [] := by
    cases ha : s.ahead with
    | nil => rfl
    | cons t rest =>
        have hcurrent : s.current = t := by simp [TokenStream.current, ha]
        rw [ha, ← List.append_assoc] at htokens
        have hmem : t ∈ body := by simp [(List.append_inj' htokens rfl).1]
        exact absurd (hcurrent ▸ heof) (hbody t hmem)
  have hall : TokenKind.nestAll? ((body ++ [last]).map Token.kind) [] = some stack := by
    rw [htokens, hahead, List.map_append, TokenKind.nestAll?_append, hrun]
    simp [s.final_kind, TokenKind.nestAll?, TokenKind.nest?, TokenKind.closes, TokenKind.closer]
  rw [hexpected c hc, ← List.mem_reverse]
  exact TokenKind.mem_iff_unmatched (TokenKind.leavesOpen_of_nestAll? hall)

theorem TokenStream.ofTokens_nested [Inhabited P] {tokens : List (Token P)}
    (ht : Terminated tokens) :
    ∃ s : TokenStream P, ofTokens tokens = .ok s ∧ s.Nested tokens [] := by
  obtain ⟨body, last, rfl, hlast, -⟩ := ht
  exact ⟨⟨body, last, [], hlast⟩, by simp [ofTokens, hlast], rfl, [], rfl, rfl⟩

theorem Parser.delimitersTracked_of_keeps [Inhabited P] {p : Parser P α}
    {watched : (TokenStream P → Bool) → Parser P α} {tokens : List (Token P)}
    (h : ∀ watch, Tolerant watch tokens → ∀ s, s.Nested tokens [] →
      Keeps tokens [] (watched watch) p s)
    (ht : Terminated tokens) : DelimitersTracked p watched tokens := by
  obtain ⟨s, hs, hnested⟩ := TokenStream.ofTokens_nested ht
  -- The watch that agrees to everything shows what the parser does on its own.
  have hkeeps := h (fun _ => true) (fun _ _ => rfl) s hnested
  refine ⟨⟨s, hs, hnested.exact, hnested.unclosed⟩, fun watch hwatch => ?_, ?_, ?_⟩
  · rw [run_of_ofTokens hs, run_of_ofTokens hs, (h watch hwatch s hnested).eq]
  · intro s₀ a s' hs₀ ha
    obtain rfl : s = s₀ := Except.ok.inj (hs.symm.trans hs₀)
    have hend := hkeeps.nested a s' ha
    exact ⟨hend.exact, hend.unclosed⟩
  · intro expected lexeme pos he c hc
    rw [run_of_ofTokens hs] at he
    exact (hkeeps.blamed expected lexeme pos (Lexer.map_eq_error.1 he)).iff_unmatched ht hc

/-- In every state of every parse the missing closers are known exactly, and a parse that breaks off
at the end of its input expects exactly these. -/
theorem ofTokens_delimitersTracked [Inhabited P] (limits : Limits) {tokens : List (Token P)}
    (ht : Terminated tokens) :
    DelimitersTracked (Parser.program limits)
        (fun watch => Parser.Stepwise.program (Parser.watchedTake watch) limits) tokens ∧
      DelimitersTracked (Parser.wholeActor limits)
        (fun watch => Parser.Stepwise.wholeActor (Parser.watchedTake watch) limits) tokens ∧
      DelimitersTracked (Parser.wholeExpr limits)
        (fun watch => Parser.Stepwise.wholeExpr (Parser.watchedTake watch) limits) tokens := by
  refine ⟨?_, ?_, ?_⟩
  · exact Parser.delimitersTracked_of_keeps (fun _ hwatch _ => .program hwatch limits) ht
  · exact Parser.delimitersTracked_of_keeps (fun _ hwatch _ => .wholeActor hwatch limits) ht
  · exact Parser.delimitersTracked_of_keeps (fun _ hwatch _ => .wholeExpr hwatch limits) ht

def Token.openSample : List (Token Nat) :=
  [⟨.print, "print(", 0⟩, ⟨.ident, "f", 1⟩, ⟨.lparen, "(", 2⟩, ⟨.rparen, ")", 3⟩, ⟨.eof, "", 4⟩]

/-- The parenthesis of the print is missing and no brace is. A watch that refuses every closer is
not tolerant, and it stops the parse. -/
theorem delimitersTracked_openSample :
    Terminated Token.openSample ∧
      Program.ofTokens ⟨2, 4⟩ Token.openSample = .error ⟨.unexpected [.rparen] .eof "", 4⟩ ∧
      TokenKind.Unmatched (Token.openSample.map Token.kind) .rparen ∧
      ¬ TokenKind.Unmatched (Token.openSample.map Token.kind) .rbrace ∧
      ¬ Parser.Tolerant (fun s => !s.current.kind.closes) Token.openSample := by
  have ht : Terminated Token.openSample :=
    ⟨Token.openSample.dropLast, ⟨.eof, "", 4⟩, rfl, rfl, by decide⟩
  have herror : Program.ofTokens ⟨2, 4⟩ Token.openSample =
      .error ⟨.unexpected [.rparen] .eof "", 4⟩ := by decide
  have htracked := (ofTokens_delimitersTracked ⟨2, 4⟩ ht).1
  have hatEnd := htracked.atEnd _ _ _ herror
  refine ⟨ht, herror, (hatEnd .rparen rfl).1 (by decide), fun hopen => ?_, fun hwatch => ?_⟩
  · exact absurd ((hatEnd .rbrace rfl).2 hopen) (by decide)
  · exact absurd (htracked.steps _ hwatch) (by decide)

end ActorLang
