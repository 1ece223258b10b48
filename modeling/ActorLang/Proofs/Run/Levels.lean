import ActorLang.Proofs.Run.Program

/-!
# Levels of nesting

Every actor and every expression is a level, numbered by the levels around it and itself. Here the
parsers run under a watch, which is asked at the entry of each level, with its number and what is
left of the input, and stops the parse unless it agrees. A level is entered behind at least one more
token than the level around it, so that a watch is not noticed if it agrees to every level whose
number is at most one more than the number of tokens before it.
-/

namespace ActorLang

variable {P α β : Type}

namespace TokenStream

/-- A stream is what is left of an input behind at least `m` tokens. -/
def Behind (input : List (Token P)) (m : Nat) (s : TokenStream P) : Prop :=
  ∃ taken, input = taken ++ (s.ahead ++ [s.final]) ∧ m ≤ taken.length

namespace Behind

variable {input us : List (Token P)} {m n : Nat} {s s' : TokenStream P}

theorem mono (h : s.Behind input n) (hm : m ≤ n) : s.Behind input m := by
  obtain ⟨taken, hinput, hn⟩ := h
  exact ⟨taken, hinput, Nat.le_trans hm hn⟩

theorem takes (h : s.Behind input m) (hs : s.Takes us s') : s'.Behind input (m + us.length) := by
  obtain ⟨taken, hinput, hm⟩ := h
  refine ⟨taken ++ us, ?_, ?_⟩
  · rw [hinput, hs.ahead, hs.final, List.append_assoc us, List.append_assoc taken]
  · rw [List.length_append]
    exact Nat.add_le_add_right hm _

theorem next (h : s.Behind input m) (hs : s.current.kind ≠ .eof) :
    s.next.2.Behind input (m + 1) :=
  h.takes (.next hs)

end Behind

end TokenStream

namespace Parser

open TokenStream Form

/-! ## Parsers under a watch -/

section Watch

variable (watch : Nat → TokenStream P → Bool)

/-- A watch agrees to every level whose number is at most one more than the number of tokens that
were taken from the input before. -/
def Lenient (input : List (Token P)) : Prop :=
  ∀ taken (s : TokenStream P) level, input = taken ++ (s.ahead ++ [s.final]) →
    level ≤ taken.length + 1 → watch level s = true

def watched (level : Nat) (p : Parser P α) : Parser P α := fun s =>
  if watch level s = true then p s else fail (.internal "level refused") s

-- With `room` levels left of the limit, `limit - room` are entered, and the next one has the number
-- `limit - room + 1`. It is watched also where it is refused for its depth.
def exprIn (limit : Nat) : Nat → Tier → Parser P (Expr P)
  | 0, _ => watched watch (limit + 1) (tooDeep limit)
  | room + 1, tier => watched watch (limit - room) (exprOf (exprIn limit room) tier)

def actorIn (limit : Nat) : Nat → Parser P (Actor P)
  | 0 => watched watch (limit + 1) (tooDeep limit)
  | room + 1 =>
    watched watch (limit - room) (actorOf (actorIn limit room) (exprIn watch limit room .chain))

def statementIn (limits : Limits) : Parser P (Statement P) :=
  statementOf
    (assignableForm limits limits.depth >>=
      assignableAs (exprIn watch limits.depth limits.depth .chain)
        (actorIn watch limits.depth limits.depth))
    (actorIn watch limits.depth limits.depth)

def programIn (limits : Limits) : Parser P (Program P) :=
  spanning (Rule.first .stmt) (programOf (statementIn watch limits))

def wholeActorIn (limits : Limits) : Parser P (Actor P) :=
  spanning [] (actorIn watch limits.depth limits.depth)

def wholeExprIn (limits : Limits) : Parser P (Expr P) :=
  spanning [.binOp] (exprIn watch limits.depth limits.depth .chain)

end Watch

/-! ## Agreement behind tokens of the input -/

/-- Two parsers do the same on a stream and stay behind `m` tokens of the input. -/
structure Agree (input : List (Token P)) (m : Nat) (p q : Parser P α) (s : TokenStream P) :
    Prop where
  eq : p s = q s
  behind : ∀ a s', p s = .ok (a, s') → s'.Behind input m

namespace Agree

variable {input : List (Token P)} {m n : Nat} {p q : Parser P α} {s : TokenStream P}

theorem mono (h : Agree input n p q s) (hm : m ≤ n) : Agree input m p q s :=
  ⟨h.eq, fun a s' ha => (h.behind a s' ha).mono hm⟩

theorem congr {p' q' : Parser P α} {s' : TokenStream P} (h : Agree input m p' q' s')
    (hp : p s = p' s') (hq : q s = q' s') : Agree input m p q s :=
  ⟨hp.trans (h.eq.trans hq.symm), fun a s₁ ha => h.behind a s₁ (hp ▸ ha)⟩

/-- What a parser passes is taken from the input. -/
theorem refl {f : Form} {more : List TokenKind} {w : Nat}
    (h : Outcome ⟨0, 0⟩ ⟨0, 0⟩ f more w 0 p p s) (hs : s.Behind input m) :
    Agree input m p p s := by
  refine ⟨rfl, fun a s' ha => ?_⟩
  cases h with
  | @passes b us s'' h =>
      obtain ⟨-, rfl⟩ : b = a ∧ s'' = s' := by simpa [h.eq_ok.1] using ha
      exact (hs.takes h.takes).mono (Nat.le_add_right ..)
  | refuses h => simp [h.eq_error.1] at ha
  | faults hp => simp [hp] at ha
  | tooDeep _ _ hp => simp [hp] at ha

theorem pure (a : α) (hs : s.Behind input m) :
    Agree input m (Pure.pure a) (Pure.pure a) s :=
  ⟨rfl, fun b s' hb => by
    obtain ⟨-, rfl⟩ : a = b ∧ s = s' := by simpa using hb
    exact hs⟩

theorem unexpected (ks : List TokenKind) :
    Agree input m (Parser.unexpected ks : Parser P α) (Parser.unexpected ks) s :=
  ⟨rfl, fun _ _ ha => absurd ha (by simp)⟩

/-- Two sequences agree if their first parts do, and their second parts do behind these. -/
theorem bind {k l : α → Parser P β} (hp : Agree input n p q s)
    (hk : ∀ a s₁, s₁.Behind input n → Agree input m (k a) (l a) s₁) :
    Agree input m (p >>= k) (q >>= l) s := by
  cases h : p s with
  | error e =>
      have hpe := bind_of_eq_error (f := k) h
      have hqe := bind_of_eq_error (f := l) (hp.eq ▸ h)
      exact ⟨hpe.trans hqe.symm, by simp [hpe]⟩
  | ok r =>
      obtain ⟨a, s₁⟩ := r
      exact (hk a s₁ (hp.behind a s₁ h)).congr (bind_of_eq_ok h) (bind_of_eq_ok (hp.eq ▸ h))

theorem map (h : Agree input m p q s) (g : α → β) :
    Agree input m (p >>= fun a => Pure.pure (g a)) (q >>= fun a => Pure.pure (g a)) s :=
  h.bind fun a _ hs₁ => pure (g a) hs₁

theorem peek {F F' : Token P → Parser P α} (h : Agree input m (F s.current) (F' s.current) s) :
    Agree input m (Parser.peek >>= F) (Parser.peek >>= F') s :=
  h.congr rfl rfl

theorem ite {c : Prop} [Decidable c] {p' q' : Parser P α} (h : Agree input m p q s)
    (h' : Agree input m p' q' s) :
    Agree input m (if c then p else p') (if c then q else q') s := by
  by_cases hc : c
  · rwa [if_pos hc, if_pos hc]
  · rwa [if_neg hc, if_neg hc]

theorem nextIs {k : TokenKind} {p' q' : Parser P α}
    (h : s.current.kind = k → Agree input m p q s) (h' : Agree input m p' q' s) :
    Agree input m (Parser.nextIs k >>= fun b => if b = true then p else p')
      (Parser.nextIs k >>= fun b => if b = true then q else q') s := by
  by_cases hk : s.current.kind = k
  · exact (h hk).congr (by simp [hk]) (by simp [hk])
  · exact h'.congr (by simp [hk]) (by simp [hk])

theorem take {k : TokenKind} {F F' : Token P → Parser P α} (hs : s.Behind input m)
    (hk : s.current.kind = k) (heof : k ≠ .eof)
    (h : ∀ s₁, s₁.Behind input (m + 1) → Agree input m (F s.current) (F' s.current) s₁) :
    Agree input m (Parser.take >>= F) (Parser.take >>= F') s := by
  have htake : Parser.take s = .ok (s.current, s.next.2) :=
    congrArg Except.ok (Prod.ext s.fst_next rfl)
  exact (h s.next.2 (hs.next (hk ▸ heof))).congr (bind_of_eq_ok htake) (bind_of_eq_ok htake)

/-- What is inside of a construct lies behind its first token. -/
theorem takeInner {k : TokenKind} {F F' : Token P → Parser P α} (hs : s.Behind input m)
    (hk : s.current.kind = k) (heof : k ≠ .eof)
    (h : ∀ s₁, s₁.Behind input (m + 1) → Agree input (m + 1) (F s.current) (F' s.current) s₁) :
    Agree input m (Parser.take >>= F) (Parser.take >>= F') s :=
  take hs hk heof fun s₁ hs₁ => (h s₁ hs₁).mono (Nat.le_succ m)

theorem expectOr {others : List TokenKind} {k : TokenKind} (hk : k ≠ .eof)
    (hs : s.Behind input m) :
    Agree input m (Parser.expectOr others k) (Parser.expectOr others k) s := by
  refine ⟨rfl, fun t s' h => ?_⟩
  obtain ⟨-, hgives⟩ := (expectOr_eq_ok hk).1 h
  have hkind : s.current.kind ≠ .eof := by rwa [hgives.current_kind]
  obtain ⟨_, _, _, _, rfl⟩ := hgives
  exact (hs.next hkind).mono (Nat.le_succ m)

theorem expect {k : TokenKind} {F F' : Token P → Parser P α} (hk : k ≠ .eof)
    (hs : s.Behind input m)
    (h : ∀ t s₁, s₁.Behind input m → Agree input m (F t) (F' t) s₁) :
    Agree input m (Parser.expect k >>= F) (Parser.expect k >>= F') s :=
  (expectOr hk hs).bind h

theorem repeated {go : TokenKind → Bool}
    (h : ∀ s, s.Behind input m → Agree input m p q s) (hs : s.Behind input m) :
    Agree input m (Parser.repeated go p) (Parser.repeated go q) s := by
  have hrounds : ∀ n s, s.Behind input m →
      Agree input m (Parser.rounds go p n) (Parser.rounds go q n) s := by
    intro n
    induction n with
    | zero => exact fun s hs => pure [] hs
    | succ n ih =>
        intro s hs
        refine peek (ite ?_ (pure [] hs))
        exact (h s hs).bind fun a s₁ hs₁ => (ih s₁ hs₁).map (a :: ·)
  exact (hrounds s.ahead.length s hs).congr rfl rfl

theorem spanning {others : List TokenKind} (h : Agree input m p q s) :
    Agree input m (spanning others p) (Parser.spanning others q) s :=
  h.bind fun a _ hs₁ => (nextIs (fun _ => pure () hs₁) (unexpected _)).map fun _ => a

/-! ## Expressions and actors -/

section Nested

variable {e e' : Tier → Parser P (Expr P)} {a a' : Parser P (Actor P)}
  (he : ∀ tier s, s.Behind input (m + 1) → Agree input (m + 1) (e tier) (e' tier) s)
  (ha : ∀ s, s.Behind input (m + 1) → Agree input (m + 1) a a' s)

include he

theorem exprHead (hs : s.Behind input m) :
    Agree input m (Parser.exprHead e) (Parser.exprHead e') s := by
  refine peek ?_
  cases hk : s.current.kind with
  | not => exact takeInner hs hk (by decide) fun s₁ hs₁ => (he .chain s₁ hs₁).map _
  | instanceOf =>
      exact takeInner hs hk (by decide) fun _ hs₁ => expect (by decide) hs₁ fun _ _ hs₂ =>
        (refl Outcome.ident hs₂).bind fun _ _ hs₃ => expect (by decide) hs₃ fun _ _ hs₄ =>
          (refl (Outcome.typeName (r := .artifactType) rfl) hs₄).bind fun _ _ hs₅ =>
            (expectOr (by decide) hs₅).map _
  | elementOf =>
      exact takeInner hs hk (by decide) fun _ hs₁ => expect (by decide) hs₁ fun _ _ hs₂ =>
        (refl Outcome.ident hs₂).bind fun _ _ hs₃ => expect (by decide) hs₃ fun _ _ hs₄ =>
          expect (by decide) hs₄ fun _ _ hs₅ => (refl Outcome.verdicts hs₅).bind fun _ _ hs₆ =>
            (expectOr (by decide) hs₆).bind fun _ _ hs₇ => (expectOr (by decide) hs₇).map _
  | ident => exact (refl Outcome.ident hs).map _
  | lparen =>
      exact takeInner hs hk (by decide) fun s₁ hs₁ => (he .chain s₁ hs₁).bind fun _ _ hs₂ =>
        (expectOr (by decide) hs₂).map _
  | _ => exact unexpected _

theorem operatorsAfter (n : Nat) (left : Expr P) (hs : s.Behind input m) :
    Agree input m (Parser.operatorsAfter (e .operand) n left)
      (Parser.operatorsAfter (e' .operand) n left) s := by
  induction n generalizing left s with
  | zero => exact pure left hs
  | succ n ih =>
      refine nextIs (fun hk => take hs hk (by decide) fun s₁ hs₁ => ?_) (pure left hs)
      have hop : Agree input (m + 1) (operator s.current) (operator s.current) s₁ :=
        ⟨rfl, fun _ _ h => (operator_eq_ok.1 h).2 ▸ hs₁⟩
      exact hop.bind fun _ s₂ hs₂ => (he .operand s₂ hs₂).bind fun _ _ hs₃ =>
        ih _ (hs₃.mono (Nat.le_succ m))

theorem exprOf (tier : Tier) (hs : s.Behind input m) :
    Agree input m (Parser.exprOf e tier) (Parser.exprOf e' tier) s := by
  cases tier with
  | chain =>
      exact (exprHead he hs).bind fun left s₁ hs₁ =>
        (operatorsAfter he s₁.ahead.length left hs₁).congr rfl rfl
  | operand => exact (exprHead he hs).map id

omit he
include ha

theorem actorPair (hs : s.Behind input (m + 1)) :
    Agree input (m + 1) (Parser.actorPair a) (Parser.actorPair a') s :=
  (ha s hs).bind fun _ _ hs₁ => expect (by decide) hs₁ fun _ s₂ hs₂ =>
    (ha s₂ hs₂).bind fun _ _ hs₃ => (expectOr (by decide) hs₃).map _

theorem factoryActor (pos : P) (hs : s.Behind input (m + 1)) :
    Agree input (m + 1) (Parser.factoryActor a pos) (Parser.factoryActor a' pos) s := by
  refine nextIs (fun _ => ?_) (peek (ite ?_ (unexpected _)))
  · exact (refl (Outcome.typeAndSource (r := .actorType) rfl) hs).map _
  · exact (ha s hs).bind fun _ _ hs₁ => (expectOr (by decide) hs₁).map _

theorem identityTarget (pos : P) (hs : s.Behind input (m + 1)) :
    Agree input (m + 1) (Parser.identityTarget a pos) (Parser.identityTarget a' pos) s :=
  nextIs (fun _ => (refl Outcome.argMap hs).map _) (peek (ite ((ha s hs).map _) (unexpected _)))

include he

theorem actorOf (hs : s.Behind input m) :
    Agree input m (Parser.actorOf a (e .chain)) (Parser.actorOf a' (e' .chain)) s := by
  refine peek ?_
  cases hk : s.current.kind with
  | actorFactory => exact takeInner hs hk (by decide) fun _ hs₁ => factoryActor ha _ hs₁
  | ident =>
      have hcall : Agree input m Parser.functionCall Parser.functionCall s :=
        refl (Outcome.functionCall hk) hs
      exact (ite hcall ((refl Outcome.ident hs).map _)).congr rfl rfl
  | joiner => exact takeInner hs hk (by decide) fun _ hs₁ => refl (Outcome.joiner _) hs₁
  | copy | rename =>
      exact takeInner hs hk (by decide) fun _ hs₁ => (refl Outcome.mapInParens hs₁).map _
  | testSpecToSpec | specToTestSpec => exact takeInner hs hk (by decide) fun _ hs₁ => pure _ hs₁
  | identity =>
      exact takeInner hs hk (by decide) fun _ hs₁ => expect (by decide) hs₁ fun _ _ hs₂ =>
        (identityTarget ha _ hs₂).bind fun _ _ hs₃ => (expectOr (by decide) hs₃).map _
  | sequence | parallel =>
      exact takeInner hs hk (by decide) fun _ hs₁ => expect (by decide) hs₁ fun _ _ hs₂ =>
        (actorPair ha hs₂).map _
  | ite =>
      exact takeInner hs hk (by decide) fun _ hs₁ => expect (by decide) hs₁ fun _ s₂ hs₂ =>
        (he .chain s₂ hs₂).bind fun _ _ hs₃ => (expectOr (by decide) hs₃).bind fun _ _ hs₄ =>
          (actorPair ha hs₄).map _
  | iterate =>
      exact takeInner hs hk (by decide) fun _ hs₁ => expect (by decide) hs₁ fun _ _ hs₂ =>
        (refl Outcome.quotedIdent hs₂).bind fun _ _ hs₃ => expect (by decide) hs₃ fun _ s₄ hs₄ =>
          (ha s₄ hs₄).bind fun _ _ hs₅ => (expectOr (by decide) hs₅).map _
  | lparen =>
      exact takeInner hs hk (by decide) fun s₁ hs₁ => (ha s₁ hs₁).bind fun _ _ hs₂ =>
        (expectOr (by decide) hs₂).map _
  | _ => exact unexpected _

end Nested

/-! ## Statements and programs -/

section Rules

variable {v v' : Parser P (Assignable P)} {a a' : Parser P (Actor P)} {e e' : Parser P (Expr P)}
  {st st' : Parser P (Statement P)}

theorem assignableAs (he : Agree input m e e' s) (ha : Agree input m a a' s)
    (hs : s.Behind input m) (form : Assignable.Form) :
    Agree input m (Parser.assignableAs e a form) (Parser.assignableAs e' a' form) s := by
  cases form with
  | expression => exact he.map _
  | artifact => exact (refl Outcome.artifact hs).map _
  | argMap => exact (refl Outcome.argMap hs).map _
  | actor => exact ha.map _
  | literal => exact (refl Outcome.literal hs).map _

theorem statementOf (hv : ∀ s, s.Behind input m → Agree input m v v' s)
    (ha : ∀ s, s.Behind input m → Agree input m a a' s) (hs : s.Behind input m) :
    Agree input m (Parser.statementOf v a) (Parser.statementOf v' a') s := by
  refine peek ?_
  cases hk : s.current.kind with
  | ident =>
      exact (refl Outcome.ident hs).bind fun _ _ hs₁ => expect (by decide) hs₁ fun _ s₂ hs₂ =>
        (hv s₂ hs₂).map _
  | print =>
      refine take hs hk (by decide) fun s₁ hs₁ => ?_
      exact (ha s₁ (hs₁.mono (Nat.le_succ m))).bind fun _ _ hs₂ => (expectOr (by decide) hs₂).map _
  | execute =>
      refine take hs hk (by decide) fun s₁ hs₁ => ?_
      exact (ha s₁ (hs₁.mono (Nat.le_succ m))).bind fun _ _ hs₂ =>
        expect (by decide) hs₂ fun _ _ hs₃ => (refl Outcome.inputs hs₃).bind fun _ _ hs₄ =>
          (expectOr (by decide) hs₄).map _
  | ret =>
      refine take hs hk (by decide) fun s₁ hs₁ => ?_
      exact (refl Outcome.ident (hs₁.mono (Nat.le_succ m))).map _
  | _ => exact unexpected _

variable (hst : ∀ s, s.Behind input m → Agree input m st st' s)

include hst

theorem blockOf (hs : s.Behind input m) :
    Agree input m (Parser.blockOf st) (Parser.blockOf st') s := by
  refine peek (Agree.map (repeated (fun s hs => ?_) hs) _)
  exact (hst s hs).bind fun _ _ hs₁ => (expectOr (by decide) hs₁).map _

theorem functionOf (hs : s.Behind input m) :
    Agree input m (Parser.functionOf st) (Parser.functionOf st') s :=
  expect (by decide) hs fun _ _ hs₁ => (refl Outcome.ident hs₁).bind fun _ _ hs₂ =>
    (refl Outcome.identsInParens hs₂).bind fun _ _ hs₃ => expect (by decide) hs₃ fun _ _ hs₄ =>
      (blockOf hst hs₄).bind fun _ _ hs₅ => (expectOr (by decide) hs₅).map _

theorem programOf (hs : s.Behind input m) :
    Agree input m (Parser.programOf st) (Parser.programOf st') s :=
  (repeated (fun _ => functionOf hst) hs).bind fun _ _ hs₁ => (blockOf hst hs₁).map _

end Rules

/-! ## The watch -/

section Watch

variable {watch : Nat → TokenStream P → Bool} (hwatch : Lenient watch input)

include hwatch

/-- A watch is not noticed at a level that it agrees to. -/
theorem watched (h : Agree input m p q s) (hs : s.Behind input m) {level : Nat}
    (hlevel : level ≤ m + 1) : Agree input m p (Parser.watched watch level q) s := by
  obtain ⟨taken, hinput, hm⟩ := hs
  have hyes : watch level s = true := hwatch taken s level hinput (by omega)
  exact h.congr rfl (if_pos hyes)

theorem exprAt {limit room : Nat} (hroom : m + room = limit) (tier : Tier)
    (hs : s.Behind input m) :
    Agree input m (exprAt limit room tier) (exprIn watch limit room tier) s := by
  induction room generalizing m tier s with
  | zero =>
      exact watched hwatch ⟨rfl, fun _ _ ha => absurd ha (by simp [Stepwise.exprAt, tooDeep])⟩ hs
        (by omega)
  | succ room ih =>
      refine watched hwatch (Agree.congr (exprOf (fun tier s hs => ?_) tier hs) rfl rfl) hs
        (by omega)
      exact ih (by omega) tier hs

theorem actor {limit room : Nat} (hroom : m + room = limit) (hs : s.Behind input m) :
    Agree input m (Parser.actor limit room) (actorIn watch limit room) s := by
  induction room generalizing m s with
  | zero =>
      exact watched hwatch ⟨rfl, fun _ _ ha => absurd ha (by simp [Stepwise.actor, tooDeep])⟩ hs
        (by omega)
  | succ room ih =>
      refine watched hwatch
        (Agree.congr (actorOf (fun tier s hs => ?_) (fun s hs => ?_) hs) rfl rfl) hs (by omega)
      · exact exprAt hwatch (by omega) tier hs
      · exact ih (by omega) hs

theorem statement (limits : Limits) (hs : s.Behind input 0) :
    Agree input 0 (Parser.statement limits) (statementIn watch limits) s := by
  have hactor : ∀ s, s.Behind input 0 → Agree input 0
      (Parser.actor limits.depth limits.depth) (actorIn watch limits.depth limits.depth) s :=
    fun _ => actor hwatch (Nat.zero_add _)
  refine statementOf (fun s hs => ?_) hactor hs
  have hform : Agree input 0 (assignableForm limits limits.depth)
      (assignableForm limits limits.depth) s :=
    ⟨rfl, fun _ _ h => assignableForm_state h ▸ hs⟩
  exact hform.bind fun form s₁ hs₁ =>
    assignableAs (exprAt hwatch (Nat.zero_add _) .chain hs₁) (hactor s₁ hs₁) hs₁ form

/-- The levels of nesting in a program do not outrun its tokens, so that a lenient watch is not
noticed. -/
theorem program (limits : Limits) (hs : s.Behind input 0) :
    Agree input 0 (Parser.program limits) (programIn watch limits) s :=
  (programOf (fun _ => statement hwatch limits) hs).spanning

theorem wholeActor (limits : Limits) (hs : s.Behind input 0) :
    Agree input 0 (Parser.wholeActor limits) (wholeActorIn watch limits) s :=
  (actor hwatch (Nat.zero_add _) hs).spanning

theorem wholeExpr (limits : Limits) (hs : s.Behind input 0) :
    Agree input 0 (Parser.wholeExpr limits) (wholeExprIn watch limits) s :=
  (exprAt hwatch (Nat.zero_add _) .chain hs).spanning

end Watch

end Agree

end Parser

end ActorLang
