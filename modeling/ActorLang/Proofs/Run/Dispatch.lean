import ActorLang.Proofs.Run.Progress

/-!
# The tables of the grammar and the rules of the parser

The table of a rule lists the classes that begin it. The parser of the rule is written apart from
the table: it looks at the next tokens, branches and calls other rules. Still both say the same. A
token of a class that is not listed is refused before any token is taken, and the error lists the
classes of the table. A token of a listed class is taken before any other can be refused.

Whether a parser has taken a token shows when it may not take any: what it still does then, it does
before the first one. `Opens` states both halves of the agreement for a parser and a list of
classes. It is settled by what a parser does first, so that it passes from the first part of a
sequence to the whole, and from a rule to those that begin with it.
-/

namespace ActorLang

variable {P α β : Type}

def Assignable.Form.first : Assignable.Form → List TokenKind
  | .expression => Rule.first .exp
  | .artifact => Rule.first .artifact
  | .argMap => [.lbrace]
  | .actor => Rule.first .actor
  | .literal => [.str]

theorem Rule.listed_first (r : Rule) : TokenKind.listed r.first = r.first := by
  refine List.filter_congr fun k _ => ?_
  rw [Bool.eq_iff_iff, List.contains_iff_mem, List.contains_iff_mem]
  exact TokenKind.mem_listed

theorem TokenStream.At.getElem?_current {tokens : List (Token P)} {i : Nat} {s : TokenStream P}
    (h : s.At tokens i) : tokens[i]? = some s.current := by
  obtain ⟨rest, hrest⟩ := s.ahead_append_final
  rw [← List.head?_drop, h.ahead, hrest, List.head?_cons]

namespace Parser

open TokenStream Form

def noTake : Parser P (Token P) :=
  watchedTake fun _ => false

/-! ## How far a parser gets -/

/-- Where a parser succeeds or refuses a token, it has taken at least `n` tokens before. -/
structure Reaches (n : Nat) (p : Parser P α) (s : TokenStream P) : Prop where
  passes : ∀ a s', p s = .ok (a, s') → ∃ us, n ≤ us.length ∧ s.Takes us s'
  refuses : ∀ ks k x pos, p s = .error ⟨.unexpected ks k x, pos⟩ →
    ∃ us s', n ≤ us.length ∧ s.Takes us s' ∧ s'.current = ⟨k, x, pos⟩

/-- All tokens that an outcome accounts for are taken before anything is refused. -/
theorem Outcome.reaches {limits limits' : Limits} {f : Form} {more : List TokenKind} {w n : Nat}
    {p q : Parser P α} {s : TokenStream P} (h : Outcome limits limits' f more w n p q s) :
    Reaches w p s := by
  refine ⟨fun a s' ha => ?_, fun ks k x pos he => ?_⟩
  · obtain ⟨us, hpass⟩ := h.passage ha
    exact ⟨us, hpass.far, hpass.takes⟩
  · cases h with
    | passes h => simp [h.eq_ok.1] at he
    | refuses h =>
        rw [h.eq_error.1] at he
        simp only [mismatch, Except.error.injEq, ParseError.mk.injEq, Cause.unexpected.injEq] at he
        obtain ⟨⟨-, rfl, rfl⟩, rfl⟩ := he
        exact ⟨_, _, h.far, h.takes, rfl⟩
    | faults hp => simp [hp] at he
    | tooDeep _ _ hp => simp [hp] at he

namespace Reaches

variable {n : Nat} {p q : Parser P α} {s : TokenStream P}

/-- The limits do not matter for a rule that does not nest. -/
theorem of_outcome {f : Form} {more : List TokenKind}
    (h : Outcome ⟨0, 0⟩ ⟨0, 0⟩ f more n 0 p p s) : Reaches n p s :=
  h.reaches

theorem weaken (h : Reaches n p s) : Reaches 0 p s := by
  refine ⟨fun a s' ha => ?_, fun ks k x pos he => ?_⟩
  · obtain ⟨us, -, hus⟩ := h.passes a s' ha
    exact ⟨us, Nat.zero_le _, hus⟩
  · obtain ⟨us, s', -, hus, hcurrent⟩ := h.refuses ks k x pos he
    exact ⟨us, s', Nat.zero_le _, hus, hcurrent⟩

theorem congr (h : Reaches n q s) (heq : p s = q s) : Reaches n p s :=
  ⟨heq ▸ h.passes, heq ▸ h.refuses⟩

theorem pure (a : α) : Reaches 0 (Pure.pure a) s := by
  refine ⟨fun b s' hb => ?_, fun _ _ _ _ he => nomatch he⟩
  obtain ⟨-, rfl⟩ : a = b ∧ s = s' := by simpa using hb
  exact ⟨[], Nat.le_refl 0, .nil s⟩

/-- A parser that fails for another reason than a refused token gets nowhere. -/
theorem stop {e : ParseError P} (hp : p s = .error e)
    (he : ∀ ks k x, e.cause ≠ .unexpected ks k x) : Reaches n p s := by
  refine ⟨fun a s' ha => ?_, fun ks k x pos hx => ?_⟩
  · rw [hp] at ha
    cases ha
  · rw [hp] at hx
    exact absurd (congrArg ParseError.cause (Except.error.inj hx)) (he ks k x)

theorem unexpected (ks : List TokenKind) : Reaches 0 (Parser.unexpected ks : Parser P α) s := by
  refine ⟨fun _ _ ha => (nomatch ha), fun js k x pos he => ⟨[], s, Nat.le_refl 0, .nil s, ?_⟩⟩
  simp only [Parser.unexpected, mismatch, Except.error.injEq, ParseError.mk.injEq,
    Cause.unexpected.injEq] at he
  obtain ⟨⟨-, rfl, rfl⟩, rfl⟩ := he
  rfl

theorem take (hs : s.current.kind ≠ .eof) : Reaches 1 Parser.take s := by
  refine ⟨fun t s' ht => ?_, fun _ _ _ _ he => nomatch he⟩
  obtain rfl : s.next.2 = s' := congrArg Prod.snd (Except.ok.inj ht)
  exact ⟨[s.current], Nat.le_refl 1, .next hs⟩

theorem bind {f : α → Parser P β} (hp : Reaches n p s) (hf : ∀ a s', Reaches 0 (f a) s') :
    Reaches n (p >>= f) s := by
  have hlength : ∀ {us vs : List (Token P)}, n ≤ us.length → n ≤ (us ++ vs).length := by
    intro us vs hn
    rw [List.length_append]
    exact Nat.le_add_right_of_le hn
  constructor
  · intro b s' hb
    obtain ⟨s₁, a, ha, hb⟩ := bind_eq_ok.1 hb
    obtain ⟨us, hn, hus⟩ := hp.passes a s₁ ha
    obtain ⟨vs, -, hvs⟩ := (hf a s₁).passes b s' hb
    exact ⟨us ++ vs, hlength hn, hus.append hvs⟩
  · intro ks k x pos he
    cases h : p s with
    | error e =>
        rw [bind_of_eq_error h] at he
        rw [Except.error.inj he] at h
        exact hp.refuses ks k x pos h
    | ok r =>
        obtain ⟨a, s₁⟩ := r
        rw [bind_of_eq_ok h] at he
        obtain ⟨us, hn, hus⟩ := hp.passes a s₁ h
        obtain ⟨vs, s', -, hvs, hcurrent⟩ := (hf a s₁).refuses ks k x pos he
        exact ⟨us ++ vs, s', hlength hn, hus.append hvs, hcurrent⟩

theorem map (hp : Reaches n p s) (f : α → β) : Reaches n (p >>= fun a => Pure.pure (f a)) s :=
  hp.bind fun a _ => pure (f a)

theorem nextIs {k : TokenKind} (h : s.current.kind = k → Reaches n p s) (h' : Reaches n q s) :
    Reaches n (Parser.nextIs k >>= fun b => if b = true then p else q) s := by
  by_cases hk : s.current.kind = k
  · exact (h hk).congr (by simp [hk])
  · exact h'.congr (by simp [hk])

theorem expectOr (others : List TokenKind) {k : TokenKind} (hk : k ≠ .eof) :
    Reaches 0 (Parser.expectOr others k) s :=
  nextIs (fun hs => (take (hs ▸ hk)).weaken) (unexpected _)

theorem expect {k : TokenKind} {f : Token P → Parser P β} (hk : k ≠ .eof)
    (hf : ∀ t s', Reaches 0 (f t) s') : Reaches 0 (Parser.expect k >>= f) s :=
  (expectOr [] hk).bind hf

theorem itemsAfterComma (h : ∀ s, Reaches 0 p s) (n : Nat) :
    Reaches 0 (Parser.itemsAfterComma p n) s := by
  induction n generalizing s with
  | zero => exact pure []
  | succ n ih =>
      refine nextIs (fun hs => ?_) (pure [])
      refine (take (by simp [hs])).weaken.bind fun _ s₁ => ?_
      exact (h s₁).bind fun a _ => ih.map (a :: ·)

theorem moreItems (h : ∀ s, Reaches 0 p s) (a : α) :
    Reaches 0 (remaining >>= fun n => Parser.itemsAfterComma p n >>= fun as =>
      Pure.pure (a :: as)) s :=
  ((itemsAfterComma h s.ahead.length).map (a :: ·)).congr rfl

theorem operatorsAfter {operand : Parser P (Expr P)} (h : ∀ s, Reaches 0 operand s) (n : Nat)
    (left : Expr P) : Reaches 0 (Parser.operatorsAfter operand n left) s := by
  induction n generalizing left s with
  | zero => exact pure left
  | succ n ih =>
      refine nextIs (fun hs => ?_) (pure left)
      refine (take (by simp [hs])).weaken.bind fun t s₁ => ?_
      have hoperator : Reaches 0 (operator t) s₁ := by
        unfold operator
        split
        · exact pure _
        · exact stop rfl (by simp)
      exact hoperator.bind fun _ s₂ => (h s₂).bind fun _ _ => ih _

end Reaches

section Levels

variable (limit room : Nat) (s : TokenStream P)

theorem outcome_exprAt (tier : Tier) :
    Outcome ⟨0, limit⟩ ⟨0, limit⟩ (rule .exp) tier.more 0 room (exprAt limit room tier)
      (exprAt limit room tier) s := by
  have hdepth : (⟨0, limit⟩ : Limits).depth = (⟨0, limit⟩ : Limits).depth + 0 := rfl
  exact (Outcome.exprAt hdepth room tier s).mono (Nat.zero_le _) (Nat.le_refl room)

theorem outcome_actor :
    Outcome ⟨0, limit⟩ ⟨0, limit⟩ (rule .actor) [] 0 room (actor limit room) (actor limit room)
      s := by
  have hdepth : (⟨0, limit⟩ : Limits).depth = (⟨0, limit⟩ : Limits).depth + 0 := rfl
  exact (Outcome.actor hdepth room s).mono (Nat.zero_le _) (Nat.le_refl room)

end Levels

/-! ## What a parser does first -/

/-- A parser takes the token at the cursor before it can refuse any: where no token may be taken, it
fails for another reason. -/
structure Begins (stepwise : Parser P (Token P) → Parser P α) (p : Parser P α)
    (s : TokenStream P) : Prop where
  waits : ∃ e, (∀ ks k x, e.cause ≠ .unexpected ks k x) ∧ stepwise noTake s = .error e
  reaches : Reaches 1 p s

namespace Begins

variable {stepwise stepwise' : Parser P (Token P) → Parser P α} {p p' : Parser P α}
  {s : TokenStream P}

theorem take (hs : s.current.kind ≠ .eof) : Begins id Parser.take s :=
  ⟨⟨_, by simp, rfl⟩, .take hs⟩

theorem stop {e : ParseError P} (he : ∀ ks k x, e.cause ≠ .unexpected ks k x)
    (hstepwise : stepwise noTake s = .error e) (hp : p s = .error e) : Begins stepwise p s :=
  ⟨⟨e, he, hstepwise⟩, .stop hp he⟩

theorem congr (h : Begins stepwise' p' s) (hstepwise : stepwise noTake s = stepwise' noTake s)
    (hp : p s = p' s) : Begins stepwise p s := by
  obtain ⟨e, he, hstop⟩ := h.waits
  exact ⟨⟨e, he, hstepwise.trans hstop⟩, h.reaches.congr hp⟩

theorem bind {g : Parser P (Token P) → α → Parser P β} {f : α → Parser P β}
    (h : Begins stepwise p s) (hf : ∀ a s', Reaches 0 (f a) s') :
    Begins (fun take => stepwise take >>= g take) (p >>= f) s := by
  obtain ⟨e, he, hstop⟩ := h.waits
  exact ⟨⟨e, he, bind_of_eq_error hstop⟩, h.reaches.bind hf⟩

theorem map (h : Begins stepwise p s) (f : α → β) :
    Begins (fun take => stepwise take >>= fun a => pure (f a)) (p >>= fun a => pure (f a)) s :=
  h.bind fun a _ => .pure (f a)

/-- A choice that takes nothing leaves the token to the parser that is chosen. -/
theorem choice {c : Parser P β} {b : β} {g : Parser P (Token P) → β → Parser P α}
    {f : β → Parser P α} (hc : c s = .ok (b, s)) (h : Begins (fun take => g take b) (f b) s) :
    Begins (fun take => c >>= g take) (c >>= f) s :=
  h.congr (bind_of_eq_ok hc) (bind_of_eq_ok hc)

theorem expect {k : TokenKind} (hs : s.current.kind = k) (hk : k ≠ .eof) :
    Begins (Stepwise.expect · k) (Parser.expect k) s := by
  refine (take (hs ▸ hk)).congr ?_ (take_eq_expect hs).symm
  simp [Stepwise.expect, Stepwise.expectOr, hs]

end Begins

/-- A parser refuses the token at the cursor, with none taken, if its class is not listed. Else it
takes this token first. -/
inductive Opens (ks : List TokenKind) (stepwise : Parser P (Token P) → Parser P α) (p : Parser P α)
    (s : TokenStream P) : Prop
  | refuses (hs : s.current.kind ∉ ks) (hp : p s = .error (s.mismatch ks))
      (hstepwise : stepwise noTake s = .error (s.mismatch ks))
  | begins (hs : s.current.kind ∈ ks) (h : Begins stepwise p s)

namespace Opens

variable {ks : List TokenKind} {stepwise : Parser P (Token P) → Parser P α} {p : Parser P α}
  {s : TokenStream P}

/-- A class that is listed is taken first. -/
theorem begun (h : Opens ks stepwise p s) (hs : s.current.kind ∈ ks) : Begins stepwise p s := by
  cases h with
  | refuses hno => exact absurd hs hno
  | begins _ h => exact h

theorem bind {g : Parser P (Token P) → α → Parser P β} {f : α → Parser P β}
    (h : Opens ks stepwise p s) (hf : ∀ a s', Reaches 0 (f a) s') :
    Opens ks (fun take => stepwise take >>= g take) (p >>= f) s := by
  cases h with
  | refuses hs hp hstepwise =>
      exact .refuses hs (bind_of_eq_error hp) (bind_of_eq_error hstepwise)
  | begins hs h => exact .begins hs (h.bind hf)

theorem map (h : Opens ks stepwise p s) (f : α → β) :
    Opens ks (fun take => stepwise take >>= fun a => pure (f a)) (p >>= fun a => pure (f a)) s :=
  h.bind fun a _ => .pure (f a)

theorem peek {F : Parser P (Token P) → Token P → Parser P α} {F' : Token P → Parser P α}
    (h : Opens ks (fun take => F take s.current) (F' s.current) s) :
    Opens ks (fun take => Parser.peek >>= F take) (Parser.peek >>= F') s := by
  cases h with
  | refuses hs hp hstepwise => exact .refuses hs hp hstepwise
  | begins hs h => exact .begins hs (h.congr rfl rfl)

theorem take {k : TokenKind} {F : Parser P (Token P) → Token P → Parser P α}
    {F' : Token P → Parser P α} (hs : s.current.kind = k) (hk : k ∈ ks) (heof : k ≠ .eof)
    (h : ∀ t s', Reaches 0 (F' t) s') :
    Opens ks (fun take => take >>= F take) (Parser.take >>= F') s := by
  subst hs
  exact .begins hk ((Begins.take heof).bind h)

theorem expect {k : TokenKind} (hk : k ≠ .eof) :
    Opens [k] (Stepwise.expect · k) (Parser.expect k) s := by
  by_cases hs : s.current.kind = k
  · exact .begins (by simp [hs]) (.expect hs hk)
  · refine .refuses (by simpa using hs) ?_ ?_
    · simp [Stepwise.expect, Stepwise.expectOr, hs, Parser.unexpected]
    · simp [Stepwise.expect, Stepwise.expectOr, hs, Parser.unexpected]

/-! ## Names, artifacts and argument maps -/

theorem commaSeparated (h : Opens ks stepwise p s) (hp : ∀ s, Reaches 0 p s) :
    Opens ks (fun take => Stepwise.commaSeparated take (stepwise take))
      (Parser.commaSeparated p) s :=
  h.bind fun a _ => .moreItems hp a

theorem ident : Opens [.ident] Stepwise.ident Parser.ident s :=
  (expect (by decide)).map _

theorem literal : Opens [.str] Stepwise.literal Parser.literal s :=
  (expect (by decide)).map _

theorem idents :
    Opens [.ident] (fun take => Stepwise.commaSeparated take (Stepwise.ident take)) Parser.idents
      s :=
  ident.commaSeparated fun _ => .of_outcome .ident

theorem quotedIdent : Opens [.quote] Stepwise.quotedIdent Parser.quotedIdent s := by
  refine (expect (by decide)).bind fun _ _ => (Reaches.of_outcome .ident).bind fun id _ => ?_
  exact .expect (by decide) fun _ _ => .pure id

theorem mapItem : Opens [.quote] Stepwise.mapItem Parser.mapItem s := by
  refine quotedIdent.bind fun key s₁ => .nextIs (fun hs => ?_) (.pure _)
  refine (Reaches.take (by simp [hs])).weaken.bind fun _ _ => ?_
  exact (Reaches.of_outcome .mapValue).map _

theorem argMap : Opens [.lbrace] Stepwise.argMap Parser.argMap s := by
  have hitem : ∀ s : TokenStream P, Reaches 0 Parser.mapItem s := fun _ => .of_outcome .mapItem
  have hitems : ∀ s : TokenStream P, Reaches 0 (Parser.commaSeparated Parser.mapItem) s :=
    fun s => (hitem s).bind fun a _ => .moreItems hitem a
  refine (expect (by decide)).bind fun _ s₁ => (hitems s₁).bind fun _ _ => ?_
  exact (Reaches.expectOr [.comma] (by decide)).map _

theorem artifact : Opens (Rule.first .artifact) Stepwise.artifact Parser.artifact s := by
  refine peek ?_
  cases hs : s.current.kind with
  | artifactFactory =>
      refine take hs (by decide) (by decide) fun t s₁ => ?_
      exact (Reaches.of_outcome (.typeAndSource (r := .artifactType) rfl)).map _
  | ident => exact .begins (by rw [hs]; decide) ((ident.begun (by simp [hs])).map _)
  | _ => exact .refuses (by rw [hs]; decide) rfl rfl

/-! ## Expressions -/

theorem verdict : Opens [.verdict] Stepwise.verdict Parser.verdict s := by
  refine (expect (by decide)).bind fun t s₁ => ?_
  split
  · exact .pure _
  · exact .stop rfl (by simp)

theorem verdicts :
    Opens [.verdict] (fun take => Stepwise.commaSeparated take (Stepwise.verdict take))
      Parser.verdicts s :=
  verdict.commaSeparated fun _ => .of_outcome .verdict

theorem exprHead (limit room : Nat) :
    Opens (Rule.first .exp) (fun take => Stepwise.exprHead take (Stepwise.exprAt take limit room))
      (Parser.exprHead (exprAt limit room)) s := by
  refine peek ?_
  cases hs : s.current.kind with
  | not =>
      refine take hs (by decide) (by decide) fun t s₁ => ?_
      exact (outcome_exprAt limit room s₁ .chain).reaches.map _
  | instanceOf =>
      refine take hs (by decide) (by decide) fun t s₁ => ?_
      refine .expect (by decide) fun _ _ => (Reaches.of_outcome .ident).bind fun _ _ => ?_
      refine .expect (by decide) fun _ _ => ?_
      refine (Reaches.of_outcome (.typeName (r := .artifactType) rfl)).bind fun _ _ => ?_
      exact .expect (by decide) fun _ _ => .pure _
  | elementOf =>
      refine take hs (by decide) (by decide) fun t s₁ => ?_
      refine .expect (by decide) fun _ _ => (Reaches.of_outcome .ident).bind fun _ _ => ?_
      refine .expect (by decide) fun _ _ => .expect (by decide) fun _ _ => ?_
      refine (Reaches.of_outcome .verdicts).bind fun _ _ => ?_
      refine (Reaches.expectOr [.comma] (by decide)).bind fun _ _ => ?_
      exact .expect (by decide) fun _ _ => .pure _
  | ident => exact .begins (by rw [hs]; decide) ((ident.begun (by simp [hs])).map _)
  | lparen =>
      refine take hs (by decide) (by decide) fun t s₁ => ?_
      refine (outcome_exprAt limit room s₁ .chain).reaches.bind fun _ _ => ?_
      exact (Reaches.expectOr [.binOp] (by decide)).map _
  | _ => exact .refuses (by rw [hs]; decide) rfl rfl

theorem exprAt (limit room : Nat) (tier : Tier) :
    Opens (Rule.first .exp) (Stepwise.exprAt · limit (room + 1) tier)
      (Parser.exprAt limit (room + 1) tier) s := by
  refine (exprHead limit room).bind fun left s₁ => ?_
  cases tier with
  | chain =>
      have hoperand : ∀ s : TokenStream P, Reaches 0 (Parser.exprAt limit room .operand) s :=
        fun s => (outcome_exprAt limit room s .operand).reaches
      exact (Reaches.operatorsAfter hoperand s₁.ahead.length left).congr rfl
  | operand => exact .pure left

/-! ## Actors -/

theorem actor (limit room : Nat) :
    Opens (Rule.first .actor) (Stepwise.actor · limit (room + 1))
      (Parser.actor limit (room + 1)) s := by
  have hactor := outcome_actor (P := P) limit room
  refine peek ?_
  cases hs : s.current.kind with
  | actorFactory =>
      refine take hs (by decide) (by decide) fun t s₁ => ?_
      exact (Outcome.factoryActor hactor t.pos).reaches
  | ident =>
      -- Whether the name is called or not, it is taken first.
      have hident : Begins Stepwise.ident Parser.ident s := ident.begun (by simp [hs])
      have hcall : Begins Stepwise.functionCall Parser.functionCall s :=
        hident.bind fun _ _ => (Reaches.of_outcome .identsInParens).map _
      refine .begins (by rw [hs]; decide) ?_
      by_cases hnext : s.kindAt 1 = .lparen
      · exact hcall.congr (by simp [hnext]) (by simp [hnext])
      · exact (hident.map Actor.named).congr (by simp [hnext]) (by simp [hnext])
  | joiner =>
      exact take hs (by decide) (by decide) fun t _ => .of_outcome (.joiner t.pos)
  | copy | rename =>
      exact take hs (by decide) (by decide) fun _ _ => (Reaches.of_outcome .mapInParens).map _
  | testSpecToSpec | specToTestSpec =>
      exact take hs (by decide) (by decide) fun _ _ => .pure _
  | identity =>
      refine take hs (by decide) (by decide) fun t _ => .expect (by decide) fun _ _ => ?_
      refine (Outcome.identityTarget hactor t.pos).reaches.bind fun _ _ => ?_
      exact .expect (by decide) fun _ _ => .pure _
  | sequence | parallel =>
      refine take hs (by decide) (by decide) fun _ _ => .expect (by decide) fun _ _ => ?_
      exact (Outcome.actorPair hactor).reaches.map _
  | ite =>
      refine take hs (by decide) (by decide) fun _ _ => .expect (by decide) fun _ s₂ => ?_
      refine (outcome_exprAt limit room s₂ .chain).reaches.bind fun _ _ => ?_
      refine (Reaches.expectOr [.binOp] (by decide)).bind fun _ _ => ?_
      exact (Outcome.actorPair hactor).reaches.map _
  | iterate =>
      refine take hs (by decide) (by decide) fun _ _ => .expect (by decide) fun _ _ => ?_
      refine (Reaches.of_outcome .quotedIdent).bind fun _ _ => .expect (by decide) fun _ s₃ => ?_
      exact (hactor s₃).reaches.bind fun _ _ => .expect (by decide) fun _ _ => .pure _
  | lparen =>
      refine take hs (by decide) (by decide) fun _ s₁ => ?_
      exact (hactor s₁).reaches.bind fun _ _ => .expect (by decide) fun _ _ => .pure _
  | _ => exact .refuses (by rw [hs]; decide) rfl rfl

end Opens

/-! ## Assigned values, statements and functions -/

/-- Where no level is left, an expression fails for its depth, and so it refuses nothing. -/
theorem Begins.exprAt (limit room : Nat) (tier : Tier) {s : TokenStream P}
    (hs : s.current.kind ∈ Rule.first .exp) :
    Begins (Stepwise.exprAt · limit room tier) (exprAt limit room tier) s := by
  cases room with
  | zero => exact .stop (by simp) rfl rfl
  | succ room => exact (Opens.exprAt limit room tier).begun hs

theorem Begins.actor (limit room : Nat) {s : TokenStream P}
    (hs : s.current.kind ∈ Rule.first .actor) :
    Begins (Stepwise.actor · limit room) (actor limit room) s := by
  cases room with
  | zero => exact .stop (by simp) rfl rfl
  | succ room => exact (Opens.actor limit room).begun hs

/-- The form of a value, if one is chosen, is one that the token at the cursor begins. -/
def FormFits (limits : Limits) (room : Nat) (s : TokenStream P) : Prop :=
  (∃ e, (∀ ks k x, e.cause ≠ .unexpected ks k x) ∧ assignableForm limits room s = .error e) ∨
    ∃ form, assignableForm limits room s = .ok (form, s) ∧ s.current.kind ∈ form.first

section FormFits

variable {limits : Limits} {room m : Nat} {s : TokenStream P}

theorem formFits_name (hrun : parenRun limits.depth room s.ahead = .ok m)
    (hid : s.kindAt m = .ident) (hexp : s.current.kind ∈ Rule.first .exp)
    (hactor : s.current.kind ∈ Rule.first .actor) : FormFits limits room s := by
  have hform := assignableForm_ident hrun hid
  by_cases hfar : limits.lookahead ≤ 1
  · rw [if_pos hfar] at hform
    exact .inl ⟨_, by simp, hform⟩
  · rw [if_neg hfar] at hform
    by_cases hnext : s.kindAt (m + 1) = .lparen
    · rw [if_pos hnext] at hform
      exact .inr ⟨.actor, hform, hactor⟩
    · rw [if_neg hnext] at hform
      exact .inr ⟨.expression, hform, hexp⟩

/-- Behind parentheses a value is an expression or an actor, and a parenthesis begins both. -/
theorem formFits_parens (hrun : parenRun limits.depth room s.ahead = .ok m) (hm : 0 < m)
    (hs : s.current.kind = .lparen) : FormFits limits room s := by
  have hexp : s.current.kind ∈ Rule.first .exp := by rw [hs]; decide
  have hactor : s.current.kind ∈ Rule.first .actor := by rw [hs]; decide
  by_cases hid : s.kindAt m = .ident
  · exact formFits_name hrun hid hexp hactor
  by_cases hk : s.kindAt m = .not ∨ s.kindAt m = .instanceOf ∨ s.kindAt m = .elementOf
  · exact .inr ⟨.expression, assignableForm_expression hrun rfl hk, hexp⟩
  · refine .inr ⟨.actor, assignableForm_inner hrun hm ?_, hactor⟩
    simpa [not_or, hid] using hk

theorem formFits_head (hrun : parenRun limits.depth room s.ahead = .ok 0)
    (hs : s.current.kind ∈ Rule.first .assignable) : FormFits limits room s := by
  by_cases hid : s.current.kind = .ident
  · exact formFits_name hrun hid (by rw [hid]; decide) (by rw [hid]; decide)
  rcases (starts_assignable _).1 (Rule.mem_first.1 hs) with hexp | hother | hactor
  · have hexp : s.current.kind = .not ∨ s.current.kind = .instanceOf ∨
        s.current.kind = .elementOf := by simpa [hid] using hexp
    refine .inr ⟨.expression, assignableForm_expression hrun rfl hexp, ?_⟩
    rcases hexp with hk | hk | hk <;> rw [hk] <;> decide
  · simp only [List.mem_cons, List.not_mem_nil, or_false] at hother
    rcases hother with hk | hk | hk
    · exact .inr ⟨.artifact, assignableForm_other hrun hk rfl (by simp), by rw [hk]; decide⟩
    · exact .inr ⟨.argMap, assignableForm_other hrun hk rfl (by simp), by rw [hk]; decide⟩
    · exact .inr ⟨.literal, assignableForm_other hrun hk rfl (by simp), by rw [hk]; decide⟩
  · exact .inr ⟨.actor, assignableForm_actor hrun rfl hactor hid, Rule.mem_first.2 hactor⟩

/-- Where a token begins a value, the form that is chosen is one that this token begins. -/
theorem formFits (limits : Limits) (room : Nat) (hs : s.current.kind ∈ Rule.first .assignable) :
    FormFits limits room s := by
  obtain ⟨m, hm, -, -⟩ := s.exists_parens
  by_cases hroom : m ≤ room
  · have hrun : parenRun limits.depth room s.ahead = .ok m := parenRun_eq_ok hm hroom
    rcases Nat.eq_zero_or_pos m with rfl | hpos
    · exact formFits_head hrun hs
    · exact formFits_parens hrun hpos (hm.parens 0 hpos)
  · obtain ⟨t, -, hrun⟩ := parenRun_eq_error limits.depth hm (Nat.lt_of_not_le hroom)
    refine .inl ⟨⟨.nesting limits.depth, t.pos⟩, by simp, ?_⟩
    rw [assignableForm, get_bind, hrun]
    rfl

end FormFits

namespace Opens

variable {s : TokenStream P}

theorem assignable (limits : Limits) (room : Nat) :
    Opens (Rule.first .assignable) (Stepwise.assignable · limits room)
      (Parser.assignable limits room) s := by
  by_cases hs : s.current.kind ∈ Rule.first .assignable
  · refine .begins hs ?_
    rcases formFits limits room hs with ⟨e, he, herror⟩ | ⟨form, hform, hk⟩
    · exact .stop he (bind_of_eq_error herror) (bind_of_eq_error herror)
    · refine .choice hform ?_
      cases form with
      | expression => exact (Begins.exprAt limits.depth room .chain hk).map _
      | artifact => exact (artifact.begun hk).map _
      | argMap => exact (argMap.begun hk).map _
      | actor => exact (Begins.actor limits.depth room hk).map _
      | literal => exact (literal.begun hk).map _
  · -- A parenthesis begins a value, so that the look ahead ends at the refused token.
    have hparens : s.Parens 0 := by
      refine ⟨by simp, fun hparen => hs ?_⟩
      rw [← kindAt_zero, hparen]
      decide
    have hrun : parenRun limits.depth room s.ahead = .ok 0 :=
      parenRun_eq_ok hparens (Nat.zero_le room)
    have hform := assignableForm_unexpected hrun fun hstart => hs (Rule.mem_first.2 hstart)
    exact .refuses hs (bind_of_eq_error hform) (bind_of_eq_error hform)

theorem statement (limits : Limits) :
    Opens (Rule.first .stmt) (Stepwise.statement · limits) (Parser.statement limits) s := by
  have hactor := outcome_actor (P := P) limits.depth limits.depth
  refine peek ?_
  cases hs : s.current.kind with
  | ident =>
      refine .begins (by rw [hs]; decide) ((ident.begun (by simp [hs])).bind fun _ _ => ?_)
      refine .expect (by decide) fun _ s₁ => ?_
      have hvalue := Outcome.assignable (Nat.add_zero limits.depth).symm (.inl rfl) limits.depth s₁
      exact hvalue.reaches.map _
  | print =>
      refine take hs (by decide) (by decide) fun _ s₁ => ?_
      exact (hactor s₁).reaches.bind fun _ _ => .expect (by decide) fun _ _ => .pure _
  | execute =>
      refine take hs (by decide) (by decide) fun _ s₁ => ?_
      refine (hactor s₁).reaches.bind fun _ _ => .expect (by decide) fun _ _ => ?_
      refine (Reaches.of_outcome .inputs).bind fun _ _ => ?_
      exact .expect (by decide) fun _ _ => .pure _
  | ret =>
      refine take hs (by decide) (by decide) fun _ _ => ?_
      exact (Reaches.of_outcome .ident).map _
  | _ => exact .refuses (by rw [hs]; decide) rfl rfl

theorem function (limits : Limits) :
    Opens [.func] (Stepwise.function · limits) (Parser.function limits) s := by
  have hblock : ∀ s : TokenStream P, Reaches 0 (block limits) s := fun s =>
    (Outcome.block (Nat.add_zero limits.depth).symm (.inl rfl) s).reaches
  refine (expect (by decide)).bind fun _ _ => (Reaches.of_outcome .ident).bind fun _ _ => ?_
  refine (Reaches.of_outcome .identsInParens).bind fun _ _ => .expect (by decide) fun _ s₁ => ?_
  exact (hblock s₁).bind fun _ _ => (Reaches.expectOr _ (by decide)).map _

end Opens

/-! ## Tables -/

/-- A rule refuses the token at the cursor, and it has taken none: it does the same where no token
may be taken. -/
structure RefusesCursor (stepwise : Parser P (Token P) → Parser P α) (rule : Parser P α)
    (expected : List TokenKind) (s : TokenStream P) : Prop where
  error : rule s = .error ⟨.unexpected expected s.current.kind s.current.text, s.current.pos⟩
  untaken : stepwise noTake s = rule s

/-- A rule of the parser, also written over the way in which tokens are taken, does what the table
of the rule says where the cursor is at the index `i` of the tokens. -/
structure Dispatches (r : Rule) (stepwise : Parser P (Token P) → Parser P α) (rule : Parser P α)
    (tokens : List (Token P)) (i : Nat) (s : TokenStream P) : Prop where
  plain : stepwise take s = rule s
  /-- The token at the cursor is refused, with none taken, if and only if it begins no
  alternative. -/
  refuses : (∃ expected, RefusesCursor stepwise rule expected s) ↔
    r.starts s.current.kind = false
  /-- Then the classes that begin an alternative are expected, and at an end of input also those
  that close the delimiters open there. -/
  expects : ∀ expected, RefusesCursor stepwise rule expected s → expected =
    if s.current.kind = .eof then TokenKind.listed (r.first ++ Token.unclosed (tokens.take i))
    else r.first
  /-- A token that begins an alternative is taken before any token is refused. -/
  takes : r.starts s.current.kind = true → ∀ expected found lexeme pos,
    stepwise noTake s ≠ .error ⟨.unexpected expected found lexeme, pos⟩
  /-- What is refused then stands behind it. -/
  behind : r.starts s.current.kind = true → ∀ expected found lexeme pos,
    rule s = .error ⟨.unexpected expected found lexeme, pos⟩ →
      ∃ j, i < j ∧ tokens[j]? = some ⟨found, lexeme, pos⟩

section Dispatches

variable {r : Rule} {stepwise : Parser P (Token P) → Parser P α} {rule : Parser P α}
  {tokens : List (Token P)} {i : Nat} {s : TokenStream P} (hs : s.At tokens i)
  (hplain : stepwise take s = rule s)

include hs hplain

theorem dispatches_of_refuses (hno : s.current.kind ∉ r.first)
    (hrule : rule s = .error (s.mismatch r.first))
    (hstepwise : stepwise noTake s = .error (s.mismatch r.first)) :
    Dispatches r stepwise rule tokens i s := by
  have hnot : r.starts s.current.kind ≠ true := fun hstart => hno (Rule.mem_first.2 hstart)
  have hrefuses : RefusesCursor stepwise rule _ s := ⟨hrule, hstepwise.trans hrule.symm⟩
  refine ⟨hplain, ⟨fun _ => Bool.eq_false_iff.2 hnot, fun _ => ⟨_, hrefuses⟩⟩, ?_,
    fun hstart => absurd hstart hnot, fun hstart => absurd hstart hnot⟩
  intro expected hrefuses
  have herror := hrule.symm.trans hrefuses.error
  simp only [mismatch, Except.error.injEq, ParseError.mk.injEq, Cause.unexpected.injEq] at herror
  rw [← herror.1.1]
  split
  · rw [hs.unclosed]
    rfl
  · rw [List.append_nil, Rule.listed_first]

theorem dispatches_of_begins (hmem : s.current.kind ∈ r.first) (h : Begins stepwise rule s) :
    Dispatches r stepwise rule tokens i s := by
  have hstart : r.starts s.current.kind = true := Rule.mem_first.1 hmem
  have htakes : ∀ expected found lexeme pos,
      stepwise noTake s ≠ .error ⟨.unexpected expected found lexeme, pos⟩ := by
    intro expected found lexeme pos herror
    obtain ⟨e, he, hstop⟩ := h.waits
    rw [hstop] at herror
    exact he expected found lexeme (congrArg ParseError.cause (Except.error.inj herror))
  -- A refusal with no token taken would also show where none may be taken.
  have hnot : ∀ expected, ¬ RefusesCursor stepwise rule expected s := fun expected hrefuses =>
    htakes _ _ _ _ (hrefuses.untaken.trans hrefuses.error)
  refine ⟨hplain, ⟨?_, ?_⟩, ?_, fun _ => htakes, ?_⟩
  · rintro ⟨expected, hrefuses⟩
    exact absurd hrefuses (hnot expected)
  · intro hstart'
    exact absurd (hstart.symm.trans hstart') (by decide)
  · intro expected hrefuses
    exact absurd hrefuses (hnot expected)
  · intro _ expected found lexeme pos herror
    obtain ⟨us, s', hlen, hus, hcurrent⟩ := h.reaches.refuses expected found lexeme pos herror
    refine ⟨i + us.length, by omega, ?_⟩
    rw [(hs.takes hus).getElem?_current, hcurrent]

theorem dispatches_of_opens {ks : List TokenKind} (hr : r.first = ks)
    (h : Opens ks stepwise rule s) : Dispatches r stepwise rule tokens i s := by
  subst hr
  cases h with
  | refuses hno hrule hstepwise => exact dispatches_of_refuses hs hplain hno hrule hstepwise
  | begins hmem h => exact dispatches_of_begins hs hplain hmem h

end Dispatches

structure RulesDispatch (limits : Limits) (tokens : List (Token P)) (i : Nat)
    (s : TokenStream P) : Prop where
  function : Dispatches .funDecl (Stepwise.function · limits) (function limits) tokens i s
  idents : Dispatches .idList (fun take => Stepwise.commaSeparated take (Stepwise.ident take))
    idents tokens i s
  statement : Dispatches .stmt (Stepwise.statement · limits) (statement limits) tokens i s
  argMap : Dispatches .argMap Stepwise.argMap argMap tokens i s
  mapItem : Dispatches .mapItem Stepwise.mapItem mapItem tokens i s
  assignable : ∀ room, Dispatches .assignable (Stepwise.assignable · limits room)
    (assignable limits room) tokens i s
  actor : ∀ limit room, 0 < room →
    Dispatches .actor (Stepwise.actor · limit room) (actor limit room) tokens i s
  artifact : Dispatches .artifact Stepwise.artifact artifact tokens i s
  expr : ∀ limit room tier, 0 < room →
    Dispatches .exp (Stepwise.exprAt · limit room tier) (exprAt limit room tier) tokens i s
  verdicts : Dispatches .verdictList
    (fun take => Stepwise.commaSeparated take (Stepwise.verdict take)) verdicts tokens i s
  quotedIdent : Dispatches .quotedId Stepwise.quotedIdent quotedIdent tokens i s

/-- The tables of the grammar and the rules of the parser agree at every token of every input. -/
theorem rulesDispatch (limits : Limits) {tokens : List (Token P)} {i : Nat} {s : TokenStream P}
    (hs : s.At tokens i) : RulesDispatch limits tokens i s := by
  have hrules := ruleProgress P limits
  constructor
  case function =>
    exact dispatches_of_opens hs (hrules.function.inside.plain _ _ _ hs) rfl (.function limits)
  case idents => exact dispatches_of_opens hs (hrules.idents.inside.plain _ _ _ hs) rfl .idents
  case statement =>
    exact dispatches_of_opens hs (hrules.statement.inside.plain _ _ _ hs) rfl (.statement limits)
  case argMap => exact dispatches_of_opens hs (hrules.argMap.inside.plain _ _ _ hs) rfl .argMap
  case mapItem => exact dispatches_of_opens hs (hrules.mapItem.inside.plain _ _ _ hs) rfl .mapItem
  case assignable =>
    intro room
    have hinside : Inside (P := P) (Stepwise.assignable · limits room) (assignable limits room) :=
      inside_of_keeps fun hwatch => .assignable hwatch limits room
    exact dispatches_of_opens hs (hinside.plain _ _ _ hs) rfl (.assignable limits room)
  case actor =>
    rintro limit (_ | room) hroom
    · exact absurd hroom (Nat.lt_irrefl 0)
    · have hplain := (hrules.actor limit (room + 1)).inside.plain _ _ _ hs
      exact dispatches_of_opens hs hplain rfl (.actor limit room)
  case artifact =>
    exact dispatches_of_opens hs (hrules.artifact.inside.plain _ _ _ hs) rfl .artifact
  case expr =>
    rintro limit (_ | room) tier hroom
    · exact absurd hroom (Nat.lt_irrefl 0)
    · have hplain := (hrules.expr limit (room + 1) tier).inside.plain _ _ _ hs
      exact dispatches_of_opens hs hplain rfl (.exprAt limit room tier)
  case verdicts =>
    exact dispatches_of_opens hs (hrules.verdicts.inside.plain _ _ _ hs) rfl .verdicts
  case quotedIdent =>
    exact dispatches_of_opens hs (hrules.quotedIdent.inside.plain _ _ _ hs) rfl .quotedIdent

/-- An execution takes its keyword first and breaks off behind it. There an argument map is refused,
and the parenthesis that the keyword opens is expected as well. -/
theorem rulesDispatch_brokenSample :
    ∃ s s' : TokenStream Nat, s.At Token.brokenSample 0 ∧ s'.At Token.brokenSample 3 ∧
      statement ⟨2, 4⟩ s = .error ⟨.unexpected [.rparen, .lbrace, .ident] .eof "", 3⟩ ∧
      (∃ j, 0 < j ∧ Token.brokenSample[j]? = some ⟨.eof, "", 3⟩) ∧
      RefusesCursor Stepwise.argMap argMap [.rparen, .lbrace] s' := by
  have hs : (⟨Token.brokenSample.dropLast, ⟨.eof, "", 3⟩, [], rfl⟩ : TokenStream Nat).At
      Token.brokenSample 0 := ⟨rfl, rfl⟩
  have hs' : (⟨[], ⟨.eof, "", 3⟩, [.rparen], rfl⟩ : TokenStream Nat).At Token.brokenSample 3 :=
    ⟨rfl, rfl⟩
  have hstatement := (rulesDispatch ⟨2, 4⟩ hs).statement
  have hargMap := (rulesDispatch ⟨2, 4⟩ hs').argMap
  obtain ⟨expected, hrefuses⟩ := hargMap.refuses.2 rfl
  obtain rfl : expected = [.rparen, .lbrace] := hargMap.expects expected hrefuses
  exact ⟨_, _, hs, hs', rfl, hstatement.behind rfl _ _ _ _ rfl, hrefuses⟩

end Parser

end ActorLang
