import ActorLang.Proofs.Lexer
import ActorLang.Proofs.Run.Levels

/-!
# What the limits of a parse can change

The depth limit can only turn a result into the complaint that it was exceeded, and it is never
exceeded by a sequence of tokens that is no longer than the limit: each level of nesting is entered
behind as many tokens as there are levels around it. How far the parser may look ahead changes
nothing once it may see two tokens, and then no text leads to an internal fault.
-/

namespace ActorLang

variable {P α : Type}

namespace Parser

theorem run_of_ofTokens [Inhabited P] {tokens : List (Token P)} {s : TokenStream P}
    (hs : TokenStream.ofTokens tokens = .ok s) (p : Parser P α) :
    p.run tokens = (p s).map Prod.fst := by
  simp only [run, hs, bind, Except.bind]
  cases p s <;> rfl

/-- Tokens that end with the end of input make a stream, which they fill. -/
theorem run_terminated [Inhabited P] (body : List (Token P)) {last : Token P}
    (hlast : last.kind = .eof) :
    ∃ s : TokenStream P, s.ahead ++ [s.final] = body ++ [last] ∧ s.unclosed = [] ∧
      ∀ {α : Type} (p : Parser P α), p.run (body ++ [last]) = (p s).map Prod.fst := by
  refine ⟨⟨body, last, [], hlast⟩, rfl, rfl, run_of_ofTokens ?_⟩
  simp [TokenStream.ofTokens, hlast]

/-- A sequence of tokens is refused for its end alone, or it is a stream. -/
theorem run_cases [Inhabited P] (tokens : List (Token P)) :
    (∃ message pos, ∀ {α : Type} (p : Parser P α),
        p.run tokens = .error ⟨.internal message, pos⟩) ∨
      ∃ s : TokenStream P, s.ahead ++ [s.final] = tokens ∧ s.unclosed = [] ∧
        ∀ {α : Type} (p : Parser P α), p.run tokens = (p s).map Prod.fst := by
  rcases List.eq_nil_or_concat tokens with rfl | ⟨body, last, rfl⟩
  · exact .inl ⟨_, _, fun _ => rfl⟩
  · rw [List.concat_eq_append]
    by_cases hlast : last.kind = .eof
    · exact .inr (run_terminated body hlast)
    · -- Tokens without an end are refused before any parser runs.
      refine .inl ⟨InternalFault.missingEnd.message, last.pos, fun p => ?_⟩
      simp [run, TokenStream.ofTokens, hlast, bind, Except.bind]

theorem run_eq_of_agree [Inhabited P] {tokens : List (Token P)} {p q : Parser P α}
    (h : ∀ s, s.Behind tokens 0 → Agree tokens 0 p q s) : q.run tokens = p.run tokens := by
  rcases run_cases tokens with ⟨message, pos, hrun⟩ | ⟨s, hs, -, hrun⟩
  · rw [hrun, hrun]
  · have hagree := h s ⟨[], hs.symm, Nat.zero_le _⟩
    rw [hrun, hrun, hagree.eq]

end Parser

/-! ## The depth limit -/

/-- What a depth limit does to a parse of tokens, which can also run under a watch. -/
structure DepthGuarded (parse : Nat → Except (ParseError P) α)
    (parseIn : (Nat → TokenStream P → Bool) → Nat → Except (ParseError P) α)
    (tokens : List (Token P)) : Prop where
  /-- A higher limit changes nothing unless the lower one is exceeded. -/
  transparent : ∀ d d', d ≤ d' →
    parse d = parse d' ∨ ∃ t ∈ tokens, parse d = .error ⟨.nesting d, t.pos⟩
  /-- A watch that agrees to every level whose number is at most one more than the number of tokens
  before it is never noticed: no other level is entered. -/
  entered : ∀ watch d, Parser.Lenient watch tokens → parseIn watch d = parse d
  /-- The refused level has at least `d` tokens before it. -/
  refused : ∀ d limit pos, parse d = .error ⟨.nesting limit, pos⟩ →
    limit = d ∧ ∃ i t, tokens[i]? = some t ∧ t.pos = pos ∧ d ≤ i
  /-- A limit as high as the number of tokens is not exceeded. -/
  ample : ∀ d limit pos, tokens.length ≤ d → parse d ≠ .error ⟨.nesting limit, pos⟩

namespace Parser

theorem Ending.of_nesting {limits limits' : Limits} {f : Form} {p q : Parser P α}
    {s : TokenStream P} (h : Ending limits limits' f p q s) {limit : Nat} {pos : P}
    (hp : p s = .error ⟨.nesting limit, pos⟩) :
    limit = limits.depth ∧
      ∃ i t, (s.ahead ++ [s.final])[i]? = some t ∧ t.pos = pos ∧ limits.depth ≤ i := by
  cases h with
  | accepts ha =>
      rw [ha] at hp
      cases hp
  | refuses hr =>
      rw [hr.eq_error.1] at hp
      cases hp
  | faults hf =>
      rw [hf] at hp
      cases hp
  | @tooDeep i t hi ht hd =>
      rw [hd] at hp
      cases hp
      exact ⟨rfl, i, t, ht, rfl, hi⟩

/-- A lower limit changes nothing but to refuse a token for its nesting. -/
theorem Ending.eq_or_nesting {limits limits' : Limits} {f : Form} {p q : Parser P α}
    {s : TokenStream P} (h : Ending limits limits' f p q s) :
    p s = q s ∨ ∃ t ∈ s.ahead ++ [s.final], p s = .error ⟨.nesting limits.depth, t.pos⟩ := by
  cases h with
  | accepts hp hq => exact .inl (hp.trans hq.symm)
  | refuses hr => exact .inl (hr.eq_error.1.trans hr.eq_error.2.symm)
  | faults hp hq => exact .inl (hp.trans hq.symm)
  | tooDeep hi ht hp => exact .inr ⟨_, List.mem_of_getElem? ht, hp⟩

theorem depthGuarded_of_ending [Inhabited P] {f : Form} {p : Limits → Parser P α}
    {watched : (Nat → TokenStream P → Bool) → Limits → Parser P α} {tokens : List (Token P)}
    (h : ∀ lookahead d d', d ≤ d' →
      ∀ s, Ending ⟨lookahead, d⟩ ⟨lookahead, d'⟩ f (p ⟨lookahead, d⟩) (p ⟨lookahead, d'⟩) s)
    (hwatched : ∀ watch limits, Lenient watch tokens →
      ∀ s, s.Behind tokens 0 → Agree tokens 0 (p limits) (watched watch limits) s)
    (lookahead : Nat) :
    DepthGuarded (fun d => (p ⟨lookahead, d⟩).run tokens)
      (fun watch d => (watched watch ⟨lookahead, d⟩).run tokens) tokens := by
  have hrefused : ∀ d limit pos, (p ⟨lookahead, d⟩).run tokens = .error ⟨.nesting limit, pos⟩ →
      limit = d ∧ ∃ i t, tokens[i]? = some t ∧ t.pos = pos ∧ d ≤ i := by
    intro d limit pos hd
    rcases run_cases tokens with ⟨message, place, hrun⟩ | ⟨s, rfl, -, hrun⟩
    · rw [hrun] at hd
      cases hd
    · rw [hrun] at hd
      exact (h lookahead d d (Nat.le_refl d) s).of_nesting (Lexer.map_eq_error.1 hd)
  refine ⟨fun d d' hd => ?_, fun watch d hwatch => run_eq_of_agree (hwatched watch _ hwatch),
    hrefused, fun d limit pos hlen heq => ?_⟩
  · rcases run_cases tokens with ⟨message, place, hrun⟩ | ⟨s, rfl, -, hrun⟩
    · exact .inl ((hrun _).trans (hrun _).symm)
    · rcases (h lookahead d d' hd s).eq_or_nesting with heq | ⟨t, ht, hp⟩
      · exact .inl (by rw [hrun, hrun, heq])
      · exact .inr ⟨t, ht, by rw [hrun, hp]; rfl⟩
  · obtain ⟨-, i, t, ht, -, hi⟩ := hrefused d limit pos heq
    have hlt := (List.getElem?_eq_some_iff.1 ht).1
    omega

end Parser

/-- The depth limit is transparent to all parsers of tokens, and the number of every level that is
entered is at most one more than the number of tokens taken before. -/
theorem ofTokens_depthGuarded [Inhabited P] (lookahead : Nat) (tokens : List (Token P)) :
    DepthGuarded (fun d => Program.ofTokens ⟨lookahead, d⟩ tokens)
        (fun watch d => (Parser.programIn watch ⟨lookahead, d⟩).run tokens) tokens ∧
      DepthGuarded (fun d => Actor.ofTokens ⟨lookahead, d⟩ tokens)
        (fun watch d => (Parser.wholeActorIn watch ⟨lookahead, d⟩).run tokens) tokens ∧
      DepthGuarded (fun d => Expr.ofTokens ⟨lookahead, d⟩ tokens)
        (fun watch d => (Parser.wholeExprIn watch ⟨lookahead, d⟩).run tokens) tokens := by
  refine ⟨?_, ?_, ?_⟩
  · exact Parser.depthGuarded_of_ending (fun _ _ _ hd => Parser.ending_program hd (.inl rfl))
      (fun _ limits hwatch _ => Parser.Agree.program hwatch limits) lookahead
  · exact Parser.depthGuarded_of_ending (fun _ _ _ hd => Parser.ending_actor hd)
      (fun _ limits hwatch _ => Parser.Agree.wholeActor hwatch limits) lookahead
  · exact Parser.depthGuarded_of_ending (fun _ _ _ hd => Parser.ending_expr hd)
      (fun _ limits hwatch _ => Parser.Agree.wholeExpr hwatch limits) lookahead

/-- Two parentheses around a name are three levels, and the third is entered behind two tokens. -/
example :
    Expr.ofTokens ⟨2, 2⟩ [⟨.lparen, "(", 0⟩, ⟨.lparen, "(", 1⟩, ⟨.ident, "a", 2⟩, ⟨.rparen, ")", 3⟩,
      ⟨.rparen, ")", 4⟩, ⟨.eof, "", 5⟩] = .error ⟨.nesting 2, 2⟩ := by
  decide

/-- A watch that agrees to two levels only stops the parse there. -/
example :
    (Parser.wholeExprIn (fun level _ => level < 3) ⟨2, 9⟩).run [⟨.lparen, "(", 0⟩,
      ⟨.lparen, "(", 1⟩, ⟨.ident, "a", 2⟩, ⟨.rparen, ")", 3⟩, ⟨.rparen, ")", 4⟩, ⟨.eof, "", 5⟩] =
      .error ⟨.internal "level refused", 2⟩ := by
  decide

/-! ## The lookahead -/

namespace Lexer

theorem binOp_of_wordKind {w : String} (h : wordKind w = .binOp) : BinOp.ofText? w ≠ none := by
  unfold wordKind at h
  split at h
  all_goals first | decide | cases h | (split at h <;> cases h)

theorem verdict_of_wordKind {w : String} (h : wordKind w = .verdict) :
    Verdict.ofText? w ≠ none := by
  unfold wordKind at h
  split at h
  all_goals first | decide | cases h | (split at h <;> cases h)

/-- Every operator and every verdict that is read is a known one. -/
theorem Lexeme.stands {k : TokenKind} {text : List Char} (h : Lexeme k text) (pos : P) :
    Token.Stands ⟨k, String.ofList text, pos⟩ k := by
  cases h with
  | @keyword x k h =>
      have hplain : ∀ e ∈ punctuatedKeywords, e.2.plain = true := by decide
      exact (TokenKind.stands_of_plain (hplain _ h)).2 _ rfl
  | word => exact ⟨rfl, binOp_of_wordKind, verdict_of_wordKind⟩
  | digits | quoted | assign => exact (TokenKind.stands_of_plain rfl).2 _ rfl
  | @operator c hc =>
      have hknown : BinOp.ofText? (String.ofList [c, '=']) ≠ none := by
        rcases hc with rfl | rfl <;> decide
      exact ⟨rfl, fun _ => hknown, by simp⟩
  | @punctuation c k h =>
      have hplain : k.plain = true := by
        unfold punctuationKind? at h
        split at h <;> cases h <;> rfl
      exact (TokenKind.stands_of_plain hplain).2 _ rfl

end Lexer

theorem stands_of_tokenize {source : String} {tokens : List (Token Position)}
    (h : tokenize source = .ok tokens) {t : Token Position} (ht : t ∈ tokens) :
    t.Stands t.kind := by
  obtain ⟨body, last, rfl, hlast, hbody⟩ := Lexer.scan_spec h
  rcases List.mem_append.1 ht with ht | ht
  · have hlexeme := Lexer.isLexeme_iff.1 (hbody t ht).2
    simpa using hlexeme.stands t.pos
  · obtain rfl := List.mem_singleton.1 ht
    rw [hlast]
    exact ⟨hlast, by simp, by simp⟩

namespace Lexer

/-- Scanning fails for lexical reasons only. -/
theorem lexical_of_scan {skip : Nat} {pos : Position} {text : List Char}
    {e : ParseError Position} (h : scan skip pos text = .error e) :
    ∃ message, e.cause = .lexical message := by
  induction text generalizing skip pos with
  | nil => cases h
  | cons c rest ih =>
      unfold scan at h
      split at h
      · exact ih h
      · split at h
        · cases h
          exact ⟨_, rfl⟩
        · split at h
          · exact ih h
          · exact ih (map_eq_error.1 h)

end Lexer

namespace Parser

/-- With two tokens of lookahead and known tokens, a parse has no fault and depends on the depth
limit alone. -/
theorem Ending.sound {limits limits' : Limits} {f : Form} {p q : Parser P α} {s : TokenStream P}
    (h : Ending limits limits' f p q s) (hlook : 2 ≤ limits.lookahead)
    (hknown : ∀ t ∈ s.ahead, t.Stands t.kind) (hdepth : limits.depth = limits'.depth) :
    p s = q s ∧ ∀ message pos, p s ≠ .error ⟨.internal message, pos⟩ := by
  cases h with
  | accepts hp hq => exact ⟨hp.trans hq.symm, by simp [hp]⟩
  | refuses hr =>
      obtain ⟨hp, hq⟩ := hr.eq_error
      exact ⟨hp.trans hq.symm, by simp [hp, TokenStream.mismatch]⟩
  | faults hp hq cause =>
      rcases cause with hshort | ⟨t, ht, hunknown⟩
      · omega
      · exact absurd (hknown t ht) hunknown
  | tooDeep hi ht hp hq => exact ⟨hp.trans (hq hdepth).symm, by simp [hp]⟩

theorem parse_sound {limits limits' : Limits} {f : Form} {p q : Parser Position α}
    (h : ∀ s, Ending limits limits' f p q s) (hlook : 2 ≤ limits.lookahead)
    (hdepth : limits.depth = limits'.depth) (source : String) :
    (tokenize source >>= p.run) = (tokenize source >>= q.run) ∧
      ∀ message pos, (tokenize source >>= p.run) ≠ .error ⟨.internal message, pos⟩ := by
  cases htokens : tokenize source with
  | error e =>
      obtain ⟨message, he⟩ := Lexer.lexical_of_scan htokens
      refine ⟨rfl, fun message' pos heq => ?_⟩
      obtain rfl : e = ⟨.internal message', pos⟩ := Except.error.inj heq
      cases he
  | ok tokens =>
      obtain ⟨body, last, rfl, hlast, -⟩ := Lexer.scan_spec htokens
      obtain ⟨s, hs, -, hrun⟩ := run_terminated body hlast
      have hknown : ∀ t ∈ s.ahead, t.Stands t.kind := fun t ht =>
        stands_of_tokenize htokens (hs ▸ List.mem_append_left _ ht)
      obtain ⟨heq, hsound⟩ := (h s).sound hlook hknown hdepth
      refine ⟨(hrun p).trans ((congrArg _ heq).trans (hrun q).symm), fun message pos hfault => ?_⟩
      exact hsound message pos (Lexer.map_eq_error.1 ((hrun p).symm.trans hfault))

end Parser

/-- No text leads to an internal fault, and the lookahead is not observable, if the parser may see
two tokens. -/
theorem parse_lookahead (limits limits' : Limits) (hlook : 2 ≤ limits.lookahead)
    (hlook' : 2 ≤ limits'.lookahead) (hdepth : limits.depth = limits'.depth) (source : String) :
    (∀ message pos, Program.parse limits source ≠ .error ⟨.internal message, pos⟩ ∧
        Actor.parse limits source ≠ .error ⟨.internal message, pos⟩ ∧
        Expr.parse limits source ≠ .error ⟨.internal message, pos⟩) ∧
      Program.parse limits source = Program.parse limits' source ∧
      Actor.parse limits source = Actor.parse limits' source ∧
      Expr.parse limits source = Expr.parse limits' source := by
  have hle : limits.depth ≤ limits'.depth := Nat.le_of_eq hdepth
  obtain ⟨hprogram, hp⟩ :=
    Parser.parse_sound (Parser.ending_program hle (.inr ⟨hlook, hlook'⟩)) hlook hdepth source
  obtain ⟨hactor, ha⟩ := Parser.parse_sound (Parser.ending_actor hle) hlook hdepth source
  obtain ⟨hexpr, he⟩ := Parser.parse_sound (Parser.ending_expr hle) hlook hdepth source
  exact ⟨fun message pos => ⟨hp message pos, ha message pos, he message pos⟩,
    hprogram, hactor, hexpr⟩

theorem parse_lookahead_callSample :
    (∀ message pos, Program.parse {} "x = ((f(a)));" ≠ .error ⟨.internal message, pos⟩) ∧
      Program.parse {} "x = ((f(a)));" = Program.parse ⟨2, 256⟩ "x = ((f(a)));" := by
  obtain ⟨hfault, hprogram, -⟩ :=
    parse_lookahead {} ⟨2, 256⟩ (by decide) (by decide) rfl "x = ((f(a)));"
  exact ⟨fun message pos => (hfault message pos).1, hprogram⟩

/-- A parser that sees one token only cannot tell a name from a call. -/
example :
    Program.ofTokens ⟨1, 3⟩ [⟨.ident, "x", 0⟩, ⟨.assign, "=", 1⟩, ⟨.ident, "a", 2⟩, ⟨.eof, "", 3⟩] =
      .error ⟨.internal (InternalFault.shortLookahead 1).message, 2⟩ := by
  decide

end ActorLang
