import ActorLang.Proofs.Run.Limits

/-!
# Syntax errors blame the first token that cannot be right

A refused token is the first one that no sentence of the grammar has in its place: what stands
before it begins a sentence, and with the token it begins none. Of the classes listed as expected
each one would continue a sentence, except that at the end of the input the closers of all open
delimiters are listed as well.

That no sentence begins with the refused token rests on the completeness of the parser. On a
sentence that begins like the refused input the parser would do the same, under any higher limit
too, but a sentence is accepted when the limit is high enough.
-/

namespace ActorLang

variable {P α : Type}

/-! ## Sentences -/

def Form.Terminates (f : Form) : Prop :=
  ∀ ks, f.Derives ks → ∃ js, ks = js ++ [.eof] ∧ .eof ∉ js

namespace Form

theorem terminates_row {f : Form} (hf : f.inner = true) : (row [f, token .eof]).Terminates := by
  intro ks h
  cases h with
  | @seq _ _ js is hjs his =>
      refine ⟨js, ?_, hjs.eof_not_mem hf⟩
      cases his with
      | seq ht hnil =>
          cases ht
          cases hnil
          rfl

theorem terminates_program : (rule .program).Terminates := by
  intro ks h
  cases h with
  | rule h =>
      refine terminates_row (f := row [star (rule .funDecl), rule .stmtBlock]) rfl ks ?_
      cases h with
      | @seq _ _ fs rest hfs hrest =>
          cases hrest with
          | @seq _ _ body js hbody hjs =>
              rw [← List.append_assoc]
              exact .seq (.cons hfs (.last hbody)) hjs

end Form

def Token.known (k : TokenKind) (pos : P) : Token P :=
  ⟨k, if k = .verdict then Verdict.true.text else BinOp.and.text, pos⟩

theorem Token.stands_known (k : TokenKind) (pos : P) : (Token.known k pos).Stands k := by
  refine ⟨rfl, fun hk => ?_, fun hk => ?_⟩
  · simp [Token.known, hk, BinOp.ofText?_text]
  · simp [Token.known, hk, Verdict.ofText?_text]

namespace TokenStream

theorem ahead_append_final (s : TokenStream P) :
    ∃ rest, s.ahead ++ [s.final] = s.current :: rest := by
  cases h : s.ahead with
  | nil => exact ⟨[], by simp [current, h]⟩
  | cons t ts => exact ⟨ts ++ [s.final], by simp [current, h]⟩

/-- A stream can be cut in front of each of its tokens. -/
theorem exists_takes {t : TokenStream P} {us rest : List (Token P)} {v : Token P}
    (h : t.ahead ++ [t.final] = us ++ v :: rest) : ∃ u, t.Takes us u ∧ u.current = v := by
  rcases List.eq_nil_or_concat rest with rfl | ⟨init, last, rfl⟩
  · obtain ⟨ha, hf⟩ := List.append_inj' h rfl
    refine ⟨⟨[], t.final, us.foldl (fun ks t => openAfter t.kind ks) t.unclosed, t.final_kind⟩,
      ⟨by simp [ha], rfl, rfl⟩, ?_⟩
    simpa [current] using hf
  · rw [List.concat_eq_append, ← List.cons_append, ← List.append_assoc] at h
    obtain ⟨ha, hf⟩ := List.append_inj' h rfl
    exact ⟨⟨v :: init, t.final, us.foldl (fun ks t => openAfter t.kind ks) t.unclosed,
      t.final_kind⟩, ⟨ha, rfl, rfl⟩, rfl⟩

/-- The end of the input closes nothing. -/
theorem eof_not_mem_openAfter {ks : List TokenKind} (h : .eof ∉ ks) (k : TokenKind) :
    .eof ∉ openAfter k ks := by
  cases k with
  | rparen | rbrace => exact fun hmem => h (List.mem_of_mem_tail hmem)
  | _ => simpa [openAfter, TokenKind.closer] using h

end TokenStream

/-! ## Blame -/

/-- The closers of the delimiters that tokens leave open, innermost first. -/
def Token.unclosed (tokens : List (Token P)) : List TokenKind :=
  tokens.foldl (fun ks t => TokenStream.openAfter t.kind ks) []

theorem Token.eof_not_mem_unclosed (tokens : List (Token P)) : .eof ∉ Token.unclosed tokens := by
  have h : ∀ ks, .eof ∉ ks →
      .eof ∉ tokens.foldl (fun ks t => TokenStream.openAfter t.kind ks) ks := by
    induction tokens with
    | nil => exact fun ks hks => hks
    | cons t ts ih => exact fun ks hks => ih _ (TokenStream.eof_not_mem_openAfter hks t.kind)
  exact h [] (by simp)

theorem TokenKind.sorted_listed (ks : List TokenKind) :
    (TokenKind.listed ks).Pairwise fun j k => j.rank < k.rank := by
  have hall : TokenKind.all.Pairwise fun j k => j.rank < k.rank := by decide
  exact hall.sublist List.filter_sublist

/-- A token of class `found` behind the tokens `before` is refused for a reason: it is the first one
that no sentence of `f` has there, and the expected classes are possible there. -/
structure Blamed (f : Form) (before : List (Token P)) (expected : List TokenKind)
    (found : TokenKind) : Prop where
  begins : f.Viable (before.map Token.kind)
  stuck : ¬ f.Viable (before.map Token.kind ++ [found])
  possible : ∀ k ∈ expected, (found = .eof → k ∉ Token.unclosed before) →
    f.Viable (before.map Token.kind ++ [k])
  nonempty : expected ≠ []
  sorted : expected.Pairwise fun j k => j.rank < k.rank
  misses : found ∉ expected

namespace Parser

section Entry

variable [Inhabited P] {f : Form} {p : Limits → Parser P α}
  (hending : ∀ limits limits' : Limits, limits.depth ≤ limits'.depth →
    limits'.lookahead = limits.lookahead →
    ∀ s, Ending limits limits' f (p limits) (p limits') s)
  (haccepts : ∀ (limits : Limits) (tokens : List (Token P)), 2 ≤ limits.lookahead →
    tokens.length ≤ limits.depth → Terminated tokens → (∀ t ∈ tokens, t.Stands t.kind) →
    f.Derives (tokens.map Token.kind) → ∃ a, (p limits).run tokens = .ok a)
  (hf : f.Terminates)

include hending haccepts hf

/-- A class that is refused could not stand there: if a sentence went on with it, the parser would
accept that sentence. -/
theorem Refusal.not_viable {limits : Limits} (hlook : 2 ≤ limits.lookahead) {s s' : TokenStream P}
    {us : List (Token P)} {ks : List TokenKind}
    (h : Refusal f 0 (p limits) (p limits) s us s' ks) :
    ¬ f.Viable (us.map Token.kind ++ [s'.current.kind]) := by
  rintro ⟨js, hjs⟩
  -- A sentence that begins like the refused input, with a known text for every class.
  let v := Token.known s'.current.kind s'.current.pos
  let rest := js.map fun k => Token.known k s'.current.pos
  have hkinds : (us ++ v :: rest).map Token.kind =
      us.map Token.kind ++ [s'.current.kind] ++ js := by
    simp [v, rest, Token.known, Function.comp_def]
  have hknown : ∀ t ∈ us ++ v :: rest, t.Stands t.kind := by
    refine List.forall_mem_append.2 ⟨h.known, List.forall_mem_cons.2 ⟨?_, ?_⟩⟩
    · exact Token.stands_known _ _
    · exact List.forall_mem_map.2 fun k _ => Token.stands_known k _
  have hterminated : Terminated (us ++ v :: rest) := by
    obtain ⟨is, his, heof⟩ := hf _ hjs
    rw [← hkinds] at his
    obtain ⟨body, ends, hbody, rfl, hends⟩ := List.map_eq_append_iff.1 his
    obtain ⟨last, rfl, hlast⟩ := List.map_eq_singleton_iff.1 hends
    exact ⟨body, last, hbody, hlast, fun t ht hk => heof (List.mem_map.2 ⟨t, ht, hk⟩)⟩
  -- It is accepted under a limit as high as its length, yet refused like the input under its own.
  let limits' : Limits := ⟨limits.lookahead, max limits.depth (us ++ v :: rest).length⟩
  obtain ⟨a, ha⟩ := haccepts limits' _ hlook (Nat.le_max_right ..) hterminated hknown
    (hkinds ▸ hjs)
  obtain ⟨body, last, hbody, hlast, -⟩ := hterminated
  obtain ⟨t, ht, -, hrun⟩ := run_terminated body hlast
  obtain ⟨u, htu, hu⟩ := TokenStream.exists_takes (ht.trans hbody.symm)
  have hlike : u.Like s' := ⟨by rw [hu]; rfl, by rw [hu]; rfl⟩
  have hrefused := (h.settled t u htu hlike).1
  rw [hbody, hrun] at ha
  rcases (hending limits limits' (Nat.le_max_left ..) rfl t).eq_or_nesting with heq | ⟨w, -, hw⟩
  · simp [← heq, hrefused, Except.map] at ha
  · simp [hrefused, TokenStream.mismatch] at hw

theorem blamed {limits : Limits} (hlook : 2 ≤ limits.lookahead) {tokens : List (Token P)}
    (ht : Terminated tokens) {expected : List TokenKind} {found : TokenKind} {lexeme : String}
    {pos : P} (h : (p limits).run tokens = .error ⟨.unexpected expected found lexeme, pos⟩) :
    ∃ before after, tokens = before ++ ⟨found, lexeme, pos⟩ :: after ∧
      Blamed f before expected found := by
  obtain ⟨body, last, rfl, hlast, -⟩ := ht
  obtain ⟨s, hs, hunclosed, hrun⟩ := run_terminated body hlast
  rw [hrun, Lexer.map_eq_error] at h
  cases hending limits limits (Nat.le_refl _) rfl s with
  | accepts hp => simp [hp] at h
  | faults hp => simp [hp] at h
  | tooDeep _ _ hp => simp [hp] at h
  | @refuses us s' ks hr =>
      rw [hr.eq_error.1] at h
      simp only [TokenStream.mismatch, Except.error.injEq, ParseError.mk.injEq,
        Cause.unexpected.injEq] at h
      obtain ⟨⟨rfl, rfl, rfl⟩, rfl⟩ := h
      have hopen : s'.unclosed = Token.unclosed us := by
        rw [hr.takes.unclosed, hunclosed]
        rfl
      obtain ⟨rest, hrest⟩ := s'.ahead_append_final
      refine ⟨us, rest, ?_, ?_⟩
      · rw [← hs, hr.takes.ahead, ← hr.takes.final, List.append_assoc, hrest]
      · have hpossible : ∀ k ∈ TokenKind.listed
            (ks ++ if s'.current.kind = .eof then s'.unclosed else []),
            k ∈ ks ∨ s'.current.kind = .eof ∧ k ∈ Token.unclosed us := by
          intro k hk
          rcases List.mem_append.1 (TokenKind.mem_listed.1 hk) with hk | hk
          · exact .inl hk
          · split at hk
            · exact .inr ⟨‹_›, hopen ▸ hk⟩
            · cases hk
        obtain ⟨k, hk⟩ := List.exists_mem_of_ne_nil ks hr.nonempty
        refine ⟨(hr.viable k hk).of_append, hr.not_viable hending haccepts hf hlook, ?_, ?_, ?_, ?_⟩
        · intro k hk hclosers
          rcases hpossible k hk with hk | ⟨heof, hk⟩
          · exact hr.viable k hk
          · exact absurd hk (hclosers heof)
        · exact List.ne_nil_of_mem (TokenKind.mem_listed.2 (List.mem_append_left _ hk))
        · exact TokenKind.sorted_listed _
        · intro hmem
          rcases hpossible _ hmem with hk | ⟨heof, hk⟩
          · exact hr.misses hk
          · exact Token.eof_not_mem_unclosed us (heof ▸ hk)

end Entry

end Parser

/-! ## Acceptance -/

section Accepts

open Form

variable [Inhabited P] {limits : Limits} {tokens : List (Token P)} (hlook : 2 ≤ limits.lookahead)
  (hdepth : tokens.length ≤ limits.depth) (ht : Terminated tokens)
  (hknown : ∀ t ∈ tokens, t.Stands t.kind)

include hlook hdepth ht hknown

theorem Program.accepts (h : (rule .program).Derives (tokens.map Token.kind)) :
    ∃ p, Program.ofTokens limits tokens = .ok p := by
  obtain ⟨p, ls, hls, hm⟩ : Token.Reads (Program.Spelling limits) tokens :=
    h.holds (means_of_production hlook) rfl hknown hdepth
  exact ⟨p, (Program.ofTokens_eq_ok ht).2 ⟨ls, hls, hm⟩⟩

theorem Actor.accepts (h : (row [rule .actor, token .eof]).Derives (tokens.map Token.kind)) :
    ∃ a, Actor.ofTokens limits tokens = .ok a := by
  obtain ⟨us, _, ⟨a, ls, ha, hus⟩, ⟨_, _, ⟨t, he, rfl⟩, rfl, rfl⟩, rfl⟩ :=
    h.holds (means_of_production hlook) rfl hknown
  rw [List.length_append, ← hus.length_eq] at hdepth
  refine ⟨a, (Actor.ofTokens_eq_ok ht).2 ⟨ls, ha.mono (by omega), ?_⟩⟩
  exact List.rel_append hus (.cons he.mark .nil)

theorem Expr.accepts (h : (row [rule .exp, token .eof]).Derives (tokens.map Token.kind)) :
    ∃ e, Expr.ofTokens limits tokens = .ok e := by
  obtain ⟨us, _, ⟨e, _, ⟨hn, rfl⟩, hus⟩, ⟨_, _, ⟨t, he, rfl⟩, rfl, rfl⟩, rfl⟩ :=
    h.holds (means_of_production hlook) rfl hknown
  rw [List.length_append, ← hus.length_eq] at hdepth
  have hd := e.depth_le_length
  refine ⟨e, (Expr.ofTokens_eq_ok ht).2 ⟨hn, by omega, ?_⟩⟩
  exact List.rel_append hus (.cons he.mark .nil)

end Accepts

open Form in
/-- A syntax error names the first token that cannot be right and lists possible tokens only. -/
theorem ofTokens_unexpected [Inhabited P] (limits : Limits) (hlook : 2 ≤ limits.lookahead)
    {tokens : List (Token P)} (ht : Terminated tokens) (expected : List TokenKind)
    (found : TokenKind) (lexeme : String) (pos : P) :
    (Program.ofTokens limits tokens = .error ⟨.unexpected expected found lexeme, pos⟩ →
        ∃ before after, tokens = before ++ ⟨found, lexeme, pos⟩ :: after ∧
          Blamed (rule .program) before expected found) ∧
      (Actor.ofTokens limits tokens = .error ⟨.unexpected expected found lexeme, pos⟩ →
        ∃ before after, tokens = before ++ ⟨found, lexeme, pos⟩ :: after ∧
          Blamed (row [rule .actor, token .eof]) before expected found) ∧
      (Expr.ofTokens limits tokens = .error ⟨.unexpected expected found lexeme, pos⟩ →
        ∃ before after, tokens = before ++ ⟨found, lexeme, pos⟩ :: after ∧
          Blamed (row [rule .exp, token .eof]) before expected found) := by
  refine ⟨?_, ?_, ?_⟩
  · exact Parser.blamed (fun _ _ hd hl => Parser.ending_program hd (.inl hl))
      (fun _ _ => Program.accepts) terminates_program hlook ht
  · exact Parser.blamed (fun _ _ hd _ => Parser.ending_actor hd) (fun _ _ => Actor.accepts)
      (terminates_row rfl) hlook ht
  · exact Parser.blamed (fun _ _ hd _ => Parser.ending_expr hd) (fun _ _ => Expr.accepts)
      (terminates_row rfl) hlook ht

/-- An execution that breaks off before its inputs. The parenthesis that its keyword opens is listed
as expected, though it could not be closed here. -/
def Token.brokenSample : List (Token Nat) :=
  [⟨.execute, "execute(", 0⟩, ⟨.ident, "a", 1⟩, ⟨.comma, ",", 2⟩, ⟨.eof, "", 3⟩]

theorem blamed_brokenSample :
    Terminated Token.brokenSample ∧
      Program.ofTokens ⟨2, 4⟩ Token.brokenSample =
        .error ⟨.unexpected [.rparen, .lbrace, .ident] .eof "", 3⟩ ∧
      ∃ before after, Token.brokenSample = before ++ ⟨.eof, "", 3⟩ :: after ∧
        Blamed (.rule .program) before [.rparen, .lbrace, .ident] .eof := by
  have ht : Terminated Token.brokenSample :=
    ⟨Token.brokenSample.dropLast, ⟨.eof, "", 3⟩, rfl, rfl, by decide⟩
  have herror : Program.ofTokens ⟨2, 4⟩ Token.brokenSample =
      .error ⟨.unexpected [.rparen, .lbrace, .ident] .eof "", 3⟩ := by decide
  exact ⟨ht, herror, (ofTokens_unexpected ⟨2, 4⟩ (Nat.le_refl 2) ht _ _ _ _).1 herror⟩

end ActorLang
