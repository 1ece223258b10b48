import ActorLang.Parser.Program
import ActorLang.Tree.Relocate
import Mathlib.Logic.Basic

/-!
# Places do not matter to a parser

A parser never looks at a place. On a stream whose tokens are moved to other places it does what it
does on the stream itself: it succeeds with the same tree or refuses for the same cause, at the
moved places. The statement is kept by sequencing, so that each rule follows its definition.
-/

namespace ActorLang

variable {P Q α β γ δ : Type}

@[simp] theorem Token.map_kind (f : P → Q) (t : Token P) : (t.map f).kind = t.kind := rfl

namespace TokenStream

variable (f : P → Q) (s : TokenStream P)

@[simp] theorem current_map : (s.map f).current = s.current.map f := by
  rcases s with ⟨_ | _, _, _, _⟩ <;> rfl

@[simp] theorem kindAt_map (n : Nat) : (s.map f).kindAt n = s.kindAt n := by
  simp only [kindAt, TokenStream.map, ← List.map_drop]
  cases s.ahead.drop n <;> rfl

@[simp] theorem next_map : (s.map f).next = (s.next.1.map f, s.next.2.map f) := by
  rcases s with ⟨_ | _, _, _, _⟩ <;> rfl

@[simp] theorem length_ahead_map : (s.map f).ahead.length = s.ahead.length :=
  List.length_map _

theorem mismatch_map (ks : List TokenKind) :
    (s.map f).mismatch ks = (s.mismatch ks).map f := by
  have hunclosed : (s.map f).unclosed = s.unclosed := rfl
  simp only [mismatch, current_map, hunclosed]
  rfl

end TokenStream

namespace Parser

def moved (f : P → Q) (g : α → β) :
    Except (ParseError P) (α × TokenStream P) → Except (ParseError Q) (β × TokenStream Q)
  | .ok (a, s) => .ok (g a, s.map f)
  | .error e => .error (e.map f)

/-- The second parser does on moved streams what the first one does. -/
def Relocates (f : P → Q) (g : α → β) (p : Parser P α) (q : Parser Q β) : Prop :=
  ∀ s, q (s.map f) = moved f g (p s)

namespace Relocates

variable {f : P → Q} {g : α → β}

theorem pure {a : α} {b : β} (h : g a = b) :
    Relocates f g (Pure.pure a) (Pure.pure b) := by
  intro s
  subst h
  rfl

/-- Each part of a sequence runs on the stream that the part before has left, at either places. -/
theorem bind {p : Parser P α} {q : Parser Q β} (hp : Relocates f g p q) {h : γ → δ}
    {k : α → Parser P γ} {l : β → Parser Q δ} (hk : ∀ a, Relocates f h (k a) (l (g a))) :
    Relocates f h (p >>= k) (q >>= l) := by
  intro s
  have hs := hp s
  cases hr : p s with
  | error e =>
      rw [hr] at hs
      simp [Bind.bind, StateT.bind, Except.bind, hr, hs, moved]
  | ok r =>
      obtain ⟨a, s'⟩ := r
      rw [hr] at hs
      have hk' := hk a s'
      simpa [Bind.bind, StateT.bind, Except.bind, hr, hs, moved] using hk'

theorem ite {c : Prop} [Decidable c] {p p' : Parser P α} {q q' : Parser Q β}
    (h : Relocates f g p q) (h' : Relocates f g p' q') :
    Relocates f g (if c then p else p') (if c then q else q') := by
  by_cases hc : c
  · simpa [hc] using h
  · simpa [hc] using h'

theorem fail (cause : Cause) :
    Relocates f g (Parser.fail cause) (Parser.fail cause) := by
  intro s
  simp [Parser.fail, moved, ParseError.map, Token.map]

theorem unexpected (ks : List TokenKind) :
    Relocates f g (Parser.unexpected ks) (Parser.unexpected ks) := by
  intro s
  simp [Parser.unexpected, moved, TokenStream.mismatch_map]

theorem peek : Relocates f (Token.map f) peek peek := by
  intro s
  simp [Parser.peek, moved]

theorem nextIs (k : TokenKind) : Relocates f id (Parser.nextIs k) (Parser.nextIs k) := by
  intro s
  simp [Parser.nextIs, moved, Token.map]

theorem aheadIs (n : Nat) (k : TokenKind) :
    Relocates f id (Parser.aheadIs n k) (Parser.aheadIs n k) := by
  intro s
  simp [Parser.aheadIs, moved]

theorem remaining : Relocates f id remaining remaining := by
  intro s
  simp [Parser.remaining, moved]

theorem take : Relocates f (Token.map f) take take := by
  intro s
  simp [Parser.take, moved]

theorem expectOr (others : List TokenKind) (k : TokenKind) :
    Relocates f (Token.map f) (Parser.expectOr others k) (Parser.expectOr others k) :=
  (nextIs k).bind fun _ => .ite take (unexpected _)

theorem expect (k : TokenKind) :
    Relocates f (Token.map f) (Parser.expect k) (Parser.expect k) :=
  expectOr [] k

/-- An expected token of which nothing is kept. -/
theorem mark (k : TokenKind) {others : List TokenKind} {p : Parser P α} {q : Parser Q β}
    (h : Relocates f g p q) :
    Relocates f g (Parser.expectOr others k >>= fun _ => p)
      (Parser.expectOr others k >>= fun _ => q) :=
  (expectOr others k).bind fun _ => h

theorem expectEnd (others : List TokenKind) :
    Relocates f id (Parser.expectEnd others) (Parser.expectEnd others) :=
  (nextIs .eof).bind fun _ => .ite (pure rfl) (unexpected _)

theorem spanning {p : Parser P α} {q : Parser Q β} (h : Relocates f g p q)
    (others : List TokenKind) :
    Relocates f g (Parser.spanning others p) (Parser.spanning others q) :=
  h.bind fun _ => (expectEnd others).bind fun _ => pure rfl

theorem rounds {p : Parser P α} {q : Parser Q β} (h : Relocates f g p q) (go : TokenKind → Bool)
    (n : Nat) : Relocates f (List.map g) (Parser.rounds go p n) (Parser.rounds go q n) := by
  induction n with
  | zero => exact pure rfl
  | succ n ih =>
      refine peek.bind fun t => ?_
      rw [Token.map_kind]
      exact .ite (h.bind fun _ => ih.bind fun _ => pure rfl) (pure rfl)

theorem repeated {p : Parser P α} {q : Parser Q β} (h : Relocates f g p q)
    (go : TokenKind → Bool) :
    Relocates f (List.map g) (Parser.repeated go p) (Parser.repeated go q) :=
  remaining.bind (rounds h go)

theorem itemsAfterComma {p : Parser P α} {q : Parser Q β} (h : Relocates f g p q) (n : Nat) :
    Relocates f (List.map g) (Parser.itemsAfterComma p n) (Parser.itemsAfterComma q n) := by
  induction n with
  | zero => exact pure rfl
  | succ n ih =>
      refine (nextIs .comma).bind fun _ => .ite ?_ (pure rfl)
      exact take.bind fun _ => h.bind fun _ => ih.bind fun _ => pure rfl

theorem commaSeparated {p : Parser P α} {q : Parser Q β} (h : Relocates f g p q) :
    Relocates f (List.map g) (Parser.commaSeparated p) (Parser.commaSeparated q) :=
  h.bind fun _ => remaining.bind fun n => (itemsAfterComma h n).bind fun _ => pure rfl

/-! ## Names, artifacts and argument maps -/

theorem ident : Relocates f (Ident.map f) ident ident :=
  (expect .ident).bind fun _ => pure rfl

theorem typeName : Relocates f (TypeIdent.map f) typeName typeName :=
  (expect .typeName).bind fun _ => pure rfl

theorem literal : Relocates f (Literal.map f) literal literal :=
  (expect .str).bind fun _ => pure rfl

theorem quotedIdent : Relocates f (Ident.map f) quotedIdent quotedIdent :=
  mark .quote (ident.bind fun _ => mark .quote (pure rfl))

theorem identsInParens :
    Relocates f (List.map (Ident.map f)) identsInParens identsInParens := by
  have hclose : ∀ ids : List (Ident P), Relocates f (List.map (Ident.map f))
      (Parser.expectOr (if ids.isEmpty then [.ident] else [.comma]) .rparen >>=
        fun _ => Pure.pure ids)
      (Parser.expectOr (if (ids.map (Ident.map f)).isEmpty then [.ident] else [.comma]) .rparen >>=
        fun _ => Pure.pure (ids.map (Ident.map f))) := by
    intro ids
    rw [List.isEmpty_map]
    exact mark .rparen (pure rfl)
  refine mark .lparen ((nextIs .ident).bind fun _ => .ite ?_ ?_)
  · exact (commaSeparated ident).bind hclose
  · exact (pure (g := List.map (Ident.map f)) rfl).bind hclose

theorem reference : Relocates f (Reference.map f) reference reference := by
  refine peek.bind fun t => ?_
  rw [Token.map_kind]
  cases t.kind with
  | ident => exact ident.bind fun _ => pure rfl
  | str => exact literal.bind fun _ => pure rfl
  | _ => exact unexpected _

theorem typeAndSource :
    Relocates f (Prod.map (TypeIdent.map f) (Reference.map f)) typeAndSource typeAndSource :=
  typeName.bind fun _ => mark .comma (reference.bind fun _ => mark .rparen (pure rfl))

theorem artifact : Relocates f (Artifact.map f) artifact artifact := by
  refine peek.bind fun t => ?_
  rw [Token.map_kind]
  cases t.kind with
  | artifactFactory => exact take.bind fun _ => typeAndSource.bind fun _ => pure rfl
  | ident => exact ident.bind fun _ => pure rfl
  | _ => exact unexpected _

theorem mapValue : Relocates f (MapValue.map f) mapValue mapValue := by
  refine peek.bind fun t => ?_
  rw [Token.map_kind]
  cases t.kind with
  | artifactFactory | ident => exact artifact.bind fun _ => pure rfl
  | typeName => exact typeName.bind fun _ => pure rfl
  | quote => exact quotedIdent.bind fun _ => pure rfl
  | _ => exact unexpected _

theorem mapItem : Relocates f (MapItem.map f) mapItem mapItem :=
  quotedIdent.bind fun _ => (nextIs .colon).bind fun _ =>
    .ite (take.bind fun _ => mapValue.bind fun _ => pure rfl) (pure rfl)

theorem argMap : Relocates f (ArgMap.map f) argMap argMap :=
  (expect .lbrace).bind fun _ => (commaSeparated mapItem).bind fun _ => mark .rbrace (pure rfl)

theorem mapInParens : Relocates f (ArgMap.map f) mapInParens mapInParens :=
  mark .lparen (argMap.bind fun _ => mark .rparen (pure rfl))

/-! ## Expressions -/

theorem operator (t : Token P) : Relocates f id (operator t) (Parser.operator (t.map f)) := by
  have htext : (t.map f).text = t.text := rfl
  simp only [Parser.operator, htext]
  cases BinOp.ofText? t.text with
  | some op => exact pure rfl
  | none => exact fail _

theorem verdict : Relocates f id verdict verdict := by
  refine (expect .verdict).bind fun t => ?_
  have htext : (t.map f).text = t.text := rfl
  rw [htext]
  cases Verdict.ofText? t.text with
  | some v => exact pure rfl
  | none => exact fail _

theorem exprHead {p : Tier → Parser P (Expr P)} {q : Tier → Parser Q (Expr Q)}
    (h : ∀ tier, Relocates f (Expr.map f) (p tier) (q tier)) :
    Relocates f (Expr.map f) (exprHead p) (exprHead q) := by
  refine peek.bind fun t => ?_
  rw [Token.map_kind]
  cases t.kind with
  | not => exact take.bind fun _ => (h .chain).bind fun _ => pure rfl
  | instanceOf =>
      exact take.bind fun _ => mark .lparen (ident.bind fun _ => mark .comma
        (typeName.bind fun _ => mark .rparen (pure rfl)))
  | elementOf =>
      refine take.bind fun _ => mark .lparen (ident.bind fun _ => mark .comma (mark .lbrace
        ((commaSeparated verdict).bind fun vs => mark .rbrace (mark .rparen (pure ?_)))))
      simp [Expr.map]
      rfl
  | ident => exact ident.bind fun _ => pure rfl
  | lparen => exact take.bind fun _ => (h .chain).bind fun _ => mark .rparen (pure rfl)
  | _ => exact unexpected _

theorem operatorsAfter {p : Parser P (Expr P)} {q : Parser Q (Expr Q)}
    (h : Relocates f (Expr.map f) p q) (n : Nat) (left : Expr P) :
    Relocates f (Expr.map f) (operatorsAfter p n left)
      (operatorsAfter q n (left.map f)) := by
  induction n generalizing left with
  | zero => exact pure rfl
  | succ n ih =>
      refine (nextIs .binOp).bind fun _ => .ite ?_ (pure rfl)
      exact take.bind fun t => (operator t).bind fun op => h.bind fun right => ih _

theorem exprAt (limit room : Nat) (tier : Tier) :
    Relocates f (Expr.map f) (exprAt limit room tier) (exprAt limit room tier) := by
  induction room generalizing tier with
  | zero => exact fail _
  | succ room ih =>
      refine (exprHead ih).bind fun left => ?_
      cases tier with
      | chain => exact remaining.bind fun n => operatorsAfter (ih .operand) n left
      | operand => exact pure rfl

theorem expr (limit room : Nat) :
    Relocates f (Expr.map f) (expr limit room) (expr limit room) :=
  exprAt limit room .chain

/-! ## Actors -/

section Nested

variable {p : Parser P (Actor P)} {q : Parser Q (Actor Q)} (h : Relocates f (Actor.map f) p q)

include h

theorem actorPair :
    Relocates f (Prod.map (Actor.map f) (Actor.map f)) (actorPair p) (actorPair q) :=
  h.bind fun _ => mark .comma (h.bind fun _ => mark .rparen (pure rfl))

theorem factoryActor (pos : P) :
    Relocates f (Actor.map f) (factoryActor p pos) (factoryActor q (f pos)) := by
  refine (nextIs .typeName).bind fun _ => .ite (typeAndSource.bind fun _ => pure rfl) ?_
  exact peek.bind fun _ => .ite (h.bind fun _ => mark .rparen (pure rfl)) (unexpected _)

theorem identityTarget (pos : P) :
    Relocates f (Actor.map f) (identityTarget p pos) (identityTarget q (f pos)) := by
  refine (nextIs .lbrace).bind fun _ => .ite (argMap.bind fun _ => pure rfl) ?_
  exact peek.bind fun _ => .ite (h.bind fun _ => pure rfl) (unexpected _)

end Nested

theorem functionCall : Relocates f (Actor.map f) functionCall functionCall :=
  ident.bind fun _ => identsInParens.bind fun _ => pure rfl

theorem joiner (pos : P) :
    Relocates f (Actor.map f) (joiner pos) (joiner (f pos)) :=
  mark .lparen (typeName.bind fun _ => mark .comma (argMap.bind fun _ => mark .comma
    (quotedIdent.bind fun _ => mark .rparen (pure rfl))))

theorem actorOf {p : Parser P (Actor P)} {q : Parser Q (Actor Q)}
    (h : Relocates f (Actor.map f) p q) {e : Parser P (Expr P)} {e' : Parser Q (Expr Q)}
    (he : Relocates f (Expr.map f) e e') :
    Relocates f (Actor.map f) (actorOf p e) (actorOf q e') := by
  refine peek.bind fun t => ?_
  rw [Token.map_kind]
  cases t.kind with
  | actorFactory => exact take.bind fun t => factoryActor h t.pos
  | ident =>
      exact (aheadIs 1 .lparen).bind fun _ => .ite functionCall (ident.bind fun _ => pure rfl)
  | joiner => exact take.bind fun t => joiner t.pos
  | copy | rename => exact take.bind fun _ => mapInParens.bind fun _ => pure rfl
  | testSpecToSpec | specToTestSpec => exact take.bind fun _ => pure rfl
  | identity =>
      exact take.bind fun t => mark .lparen ((identityTarget h t.pos).bind fun _ =>
        mark .rparen (pure rfl))
  | sequence | parallel =>
      exact take.bind fun _ => mark .lparen ((actorPair h).bind fun _ => pure rfl)
  | ite =>
      exact take.bind fun _ => mark .lparen (he.bind fun _ => mark .comma
        ((actorPair h).bind fun _ => pure rfl))
  | iterate =>
      exact take.bind fun _ => mark .lparen (quotedIdent.bind fun _ => mark .comma
        (h.bind fun _ => mark .rparen (pure rfl)))
  | lparen => exact take.bind fun _ => h.bind fun _ => mark .rparen (pure rfl)
  | _ => exact unexpected _

theorem actor (limit room : Nat) :
    Relocates f (Actor.map f) (actor limit room) (actor limit room) := by
  induction room with
  | zero => exact fail _
  | succ room ih => exact actorOf ih (expr limit room)

/-! ## Statements and programs -/

/-- Parentheses are counted by classes alone; only a refusal has a place. -/
theorem parenRun (limit room : Nat) (ts : List (Token P)) :
    parenRun limit room (ts.map (Token.map f)) =
      (parenRun limit room ts).mapError (ParseError.map f) := by
  induction ts generalizing room with
  | nil => cases room <;> rfl
  | cons t ts ih =>
      by_cases ht : t.kind = .lparen
      · cases room with
        | zero =>
            simp only [List.map_cons, Parser.parenRun, Token.map_kind, ht, if_true]
            rfl
        | succ room =>
            simp only [List.map_cons, Parser.parenRun, Token.map_kind, ht, if_true, ih]
            cases Parser.parenRun limit room ts <;> rfl
      · have hstop : ∀ {R : Type} {u : Token R} {us : List (Token R)}, u.kind ≠ .lparen →
            Parser.parenRun limit room (u :: us) = .ok 0 := by
          intro R u us hu
          cases room <;> simp [Parser.parenRun, hu]
        rw [hstop ht, List.map_cons, hstop (by rwa [Token.map_kind])]
        rfl

theorem lift {x : Except (ParseError P) α} {y : Except (ParseError Q) α}
    (h : y = x.mapError (ParseError.map f)) : Relocates f id (liftM x) (liftM y) := by
  intro s
  subst h
  cases x <;> rfl

theorem getBind {k : TokenStream P → Parser P α} {l : TokenStream Q → Parser Q β}
    (h : ∀ s, Relocates f g (k s) (l (s.map f))) : Relocates f g (get >>= k) (get >>= l) :=
  fun s => h s s

theorem assignableForm (limits : Limits) (room : Nat) :
    Relocates f id (assignableForm limits room) (assignableForm limits room) := by
  refine getBind fun s => (lift (parenRun limits.depth room s.ahead)).bind fun n => ?_
  simp only [formBehind, TokenStream.kindAt_map, id]
  cases s.kindAt n with
  | not | instanceOf | elementOf => exact pure rfl
  | ident => exact .ite (fail _) (.ite (pure rfl) (pure rfl))
  | artifactFactory | lbrace | str => exact .ite (pure rfl) (pure rfl)
  | _ => exact .ite (pure rfl) (.ite (pure rfl) (unexpected _))

theorem assignable (limits : Limits) (room : Nat) :
    Relocates f (Assignable.map f) (assignable limits room) (assignable limits room) := by
  refine (assignableForm limits room).bind fun form => ?_
  cases form with
  | expression => exact (expr limits.depth room).bind fun _ => pure rfl
  | artifact => exact artifact.bind fun _ => pure rfl
  | argMap => exact argMap.bind fun _ => pure rfl
  | actor => exact (actor limits.depth room).bind fun _ => pure rfl
  | literal => exact literal.bind fun _ => pure rfl

theorem inputs : Relocates f (Inputs.map f) inputs inputs := by
  refine peek.bind fun t => ?_
  rw [Token.map_kind]
  cases t.kind with
  | ident => exact ident.bind fun _ => pure rfl
  | lbrace => exact argMap.bind fun _ => pure rfl
  | _ => exact unexpected _

theorem statement (limits : Limits) :
    Relocates f (Statement.map f) (statement limits) (statement limits) := by
  refine peek.bind fun t => ?_
  rw [Token.map_kind]
  cases t.kind with
  | ident =>
      exact ident.bind fun _ => mark .assign
        ((assignable limits limits.depth).bind fun _ => pure rfl)
  | print =>
      exact take.bind fun _ => (actor limits.depth limits.depth).bind fun _ =>
        mark .rparen (pure rfl)
  | execute =>
      exact take.bind fun _ => (actor limits.depth limits.depth).bind fun _ => mark .comma
        (inputs.bind fun _ => mark .rparen (pure rfl))
  | ret => exact take.bind fun _ => ident.bind fun _ => pure rfl
  | _ => exact unexpected _

theorem line (limits : Limits) :
    Relocates f (Statement.map f) (line (Parser.statement limits))
      (line (Parser.statement limits)) :=
  (statement limits).bind fun _ => mark .delimiter (pure rfl)

theorem block (limits : Limits) : Relocates f (Block.map f) (block limits) (block limits) :=
  peek.bind fun _ => ((line limits).repeated _).bind fun _ => pure rfl

theorem function (limits : Limits) :
    Relocates f (Function.map f) (function limits) (function limits) :=
  (expect .func).bind fun _ => ident.bind fun _ => identsInParens.bind fun _ => mark .lbrace
    ((block limits).bind fun _ => mark .rbrace (pure rfl))

theorem program (limits : Limits) :
    Relocates f (Program.map f) (program limits) (program limits) := by
  refine spanning ?_ _
  exact ((function limits).repeated _).bind fun _ => (block limits).bind fun _ => pure rfl

theorem wholeActor (limits : Limits) :
    Relocates f (Actor.map f) (wholeActor limits) (wholeActor limits) :=
  (actor _ _).spanning _

theorem wholeExpr (limits : Limits) :
    Relocates f (Expr.map f) (wholeExpr limits) (wholeExpr limits) :=
  (expr _ _).spanning _

/-- A parser that spans its input gives the same result at other places. -/
theorem run [Inhabited P] [Inhabited Q] {p : Parser P α} {q : Parser Q β}
    (h : Relocates f g p q) {tokens : List (Token P)} (hne : tokens ≠ []) :
    q.run (tokens.map (Token.map f)) = ((p.run tokens).map g).mapError (ParseError.map f) := by
  obtain ⟨ts, t, rfl⟩ : ∃ ts t, tokens = ts ++ [t] :=
    ⟨_, _, (List.dropLast_concat_getLast hne).symm⟩
  by_cases ht : t.kind = .eof
  · have hs := h ⟨ts, t, [], ht⟩
    have hp : TokenStream.ofTokens (ts ++ [t]) = .ok ⟨ts, t, [], ht⟩ := by
      simp [TokenStream.ofTokens, ht]
    have hq : TokenStream.ofTokens ((ts ++ [t]).map (Token.map f)) =
        .ok (TokenStream.map f ⟨ts, t, [], ht⟩) := by
      simp [TokenStream.ofTokens, ht, TokenStream.map]
    simp only [Parser.run, hp, hq, Bind.bind, Except.bind, hs]
    cases p ⟨ts, t, [], ht⟩ <;> rfl
  · have hp : TokenStream.ofTokens (ts ++ [t]) =
        .error ⟨.internal InternalFault.missingEnd.message, t.pos⟩ := by
      simp [TokenStream.ofTokens, ht]
    have hq : TokenStream.ofTokens ((ts ++ [t]).map (Token.map f)) =
        .error ⟨.internal InternalFault.missingEnd.message, f t.pos⟩ := by
      simp [TokenStream.ofTokens, ht, Token.map]
    simp only [Parser.run, hp, hq, Bind.bind, Except.bind]
    rfl

end Relocates

end Parser

/-- The program of tokens at other places is the program of the tokens, at these places. -/
theorem Program.ofTokens_map [Inhabited P] [Inhabited Q] (f : P → Q) {limits : Limits}
    {tokens : List (Token P)} (hne : tokens ≠ []) :
    Program.ofTokens limits (tokens.map (Token.map f)) =
      ((Program.ofTokens limits tokens).map (Program.map f)).mapError (ParseError.map f) :=
  (Parser.Relocates.program limits).run hne

end ActorLang
