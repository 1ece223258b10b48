import ActorLang.Proofs.Lexer.Lines
import ActorLang.Proofs.Relocate
import ActorLang.Proofs.Run.Limits

/-!
# Programs on consecutive lines

Two texts that stand for programs are put together, the second one on the lines below the first.
No statement reaches into the next one, so that the result is the program of all functions and all
statements in their order, if they come in the order that a program needs. Otherwise the first
function behind a statement is refused.
-/

namespace ActorLang

variable {P α : Type} {limits : Limits}

/-! ## Rows of two programs -/

theorem Leaf.Concat.append {R : α → List (Leaf P) → Prop} {as bs : List α} {ls ms : List (Leaf P)}
    (h : Concat R as ls) (h' : Concat R bs ms) : Concat R (as ++ bs) (ls ++ ms) := by
  induction as generalizing ls with
  | nil =>
      obtain rfl : ls = [] := h
      exact h'
  | cons a as ih =>
      obtain ⟨row, rest, hrow, hrest, rfl⟩ := h
      exact ⟨row, rest ++ ms, hrow, ih hrest, List.append_assoc ..⟩

theorem Statement.lines_ne_nil {sts : List (Statement P)} {rows : List (Leaf P)}
    (h : Leaf.Concat (Statement.Line limits) sts rows) (hne : sts ≠ []) : rows ≠ [] := by
  obtain ⟨st, sts, rfl⟩ := List.exists_cons_of_ne_nil hne
  obtain ⟨row, rest, hrow, -, rfl⟩ := h
  obtain ⟨l, row, rfl, -⟩ := Parser.starts_line st row hrow
  simp

/-- The functions of two programs, and then their statements. The body begins where its first
statement does. -/
def Program.followedBy (p q : Program P) : Program P :=
  ⟨p.functions ++ q.functions, ⟨p.body.statements ++ q.body.statements,
    if p.body.statements.isEmpty then q.body.pos else p.body.pos⟩⟩

section Rows

variable {p q : Program P} {fs gs rows rest : List (Leaf P)}
  (hfs : Leaf.Concat (Function.Spelling limits) p.functions fs)
  (hrows : Leaf.Concat (Statement.Line limits) p.body.statements rows)

include hfs

/-- Functions can stand in front of every program. -/
theorem Program.spelling_of_functions (hp : p.body.statements = []) (hq : q.Spelling limits rest) :
    (p.followedBy q).Spelling limits (fs ++ rest) := by
  obtain ⟨gs, _, hgs, ⟨more, hmore, rfl⟩, rfl⟩ := hq
  refine ⟨fs ++ gs, _, hfs.append hgs, ⟨more, ?_, ?_⟩, (List.append_assoc ..).symm⟩
  · simpa [followedBy, hp] using hmore
  · simp [followedBy, hp]

include hrows

/-- Statements can stand in front of every program that declares no function. -/
theorem Program.spelling_of_statements (hp : p.body.statements ≠ []) (hq : q.functions = [])
    (hmore : Leaf.Concat (Statement.Line limits) q.body.statements rest) :
    (p.followedBy q).Spelling limits
      (fs ++ (Leaf.pin p.body.pos rows ++ (rest ++ [.mark .eof]))) := by
  refine ⟨fs, _, ?_, ⟨rows ++ rest, hrows.append hmore, rfl⟩, ?_⟩
  · simpa [followedBy, hq] using hfs
  · rw [List.append_assoc, Leaf.pin_append (Statement.lines_ne_nil hrows hp)]
    simp [followedBy, hp]

end Rows

namespace Parser

open TokenStream Leaf

/-- A function behind a statement is refused where it begins. -/
theorem program_of_late_function {s s₁ s₂ : TokenStream P} {funcs : List (Function P)}
    {sts : List (Statement P)} {fs rows : List (Leaf P)}
    (hfs : Concat (Function.Spelling limits) funcs fs) (hy : s.Yields fs s₁)
    (hrows : Concat (Statement.Line limits) sts rows) (hne : sts ≠ []) (hz : s₁.Yields rows s₂)
    (hlate : s₂.current.kind = .func) :
    program limits s = .error (s₂.mismatch (Rule.first .stmt ++ [.eof])) := by
  have hstart : (s₁.current.kind == .func) = false := by
    rcases current_of_lines hrows hz with hstart | rfl
    · cases hk : s₁.current.kind <;> simp_all [Rule.starts, Rule.alternatives]
    · have hlength := hz.length_ahead
      exact absurd (List.length_eq_zero_iff.1 (by omega)) (Statement.lines_ne_nil hrows hne)
  have hfuncs : functions limits s.ahead.length s = .ok (funcs, s₁) :=
    (functions_eq_ok (Nat.le_refl _)).2 ⟨fs, hfs, hy, hstart⟩
  have hblock : block limits s₁ = .ok (⟨sts, s₁.current.pos⟩, s₂) :=
    (block_eq_ok rfl hlate).2 ⟨rfl, rows, hrows, hz⟩
  have hend : expectEnd (Rule.first .stmt) s₂ =
      .error (s₂.mismatch (Rule.first .stmt ++ [.eof])) := by
    simp [expectEnd, hlate, unexpected]
  have hprogram : programOf (statement limits) s = .ok (⟨funcs, ⟨sts, s₁.current.pos⟩⟩, s₂) := by
    simp only [Stepwise.programOf, repeated, bind_assoc, remaining_bind]
    rw [bind_of_eq_ok hfuncs]
    exact bind_of_eq_ok hblock
  exact (bind_of_eq_ok hprogram).trans (bind_of_eq_error hend)

end Parser

theorem Terminated.append {body tokens : List (Token P)} {last : Token P}
    (h : Terminated (body ++ [last])) (h' : Terminated tokens) : Terminated (body ++ tokens) := by
  obtain ⟨body, last, heq, -, hbody⟩ := h
  obtain ⟨rfl, -⟩ := List.append_inj' heq rfl
  obtain ⟨body', last', rfl, hlast, hbody'⟩ := h'
  refine ⟨_, last', (List.append_assoc ..).symm, hlast, ?_⟩
  exact List.forall_mem_append.2 ⟨hbody, hbody'⟩

section Tokens

variable [Inhabited P] {p q : Program P} {body tokens : List (Token P)} {last : Token P}
  (ht : Terminated (body ++ [last])) (ht' : Terminated tokens)
  (hp : Program.ofTokens limits (body ++ [last]) = .ok p)
  (hq : Program.ofTokens limits tokens = .ok q)

include ht ht' hp hq

theorem Program.ofTokens_append (h : p.body.statements = [] ∨ q.functions = []) :
    Program.ofTokens limits (body ++ tokens) = .ok (p.followedBy q) := by
  obtain ⟨_, ⟨fs, _, hfs, ⟨rows, hrows, rfl⟩, rfl⟩, hm⟩ := (Program.ofTokens_eq_ok ht).1 hp
  obtain ⟨ls, hls, hm'⟩ := (Program.ofTokens_eq_ok ht').1 hq
  apply (Program.ofTokens_eq_ok (ht.append ht')).2
  by_cases hsts : p.body.statements = []
  · obtain rfl : rows = [] := by
      rw [hsts] at hrows
      exact hrows
    refine ⟨_, p.spelling_of_functions hfs hsts hls, ?_⟩
    exact List.rel_append (Leaf.matches_concat.1 hm).1 hm'
  · have hfuncs : q.functions = [] := h.resolve_left hsts
    obtain ⟨gs, _, hgs, ⟨more, hmore, rfl⟩, rfl⟩ := hls
    obtain rfl : gs = [] := by
      rw [hfuncs] at hgs
      exact hgs
    refine ⟨_, p.spelling_of_statements hfs hrows hsts hfuncs hmore, ?_⟩
    rw [Leaf.pin_append (Statement.lines_ne_nil hrows hsts), ← List.append_assoc] at hm
    rw [← List.append_assoc]
    exact List.rel_append (Leaf.matches_concat.1 hm).1 (Leaf.matches_of_pin hm')

theorem Program.ofTokens_append_late (h : p.body.statements ≠ []) {f : Function P}
    (hf : f ∈ q.functions.head?) :
    ∃ expected text, Program.ofTokens limits (body ++ tokens) =
      .error ⟨.unexpected expected .func text, f.pos⟩ := by
  obtain ⟨_, ⟨fs, _, hfs, ⟨rows, hrows, rfl⟩, rfl⟩, hm⟩ := (Program.ofTokens_eq_ok ht).1 hp
  obtain ⟨_, ⟨gs, _, hgs, -, rfl⟩, hm'⟩ := (Program.ofTokens_eq_ok ht').1 hq
  rw [Leaf.pin_append (Statement.lines_ne_nil hrows h), ← List.append_assoc] at hm
  obtain ⟨us, vs, hus, hvs, rfl⟩ := Leaf.matches_append.1 (Leaf.matches_concat.1 hm).1
  -- The first token of the second program is the keyword of its first function.
  obtain ⟨funcs, hfuncs⟩ := List.head?_eq_some_iff.1 hf
  rw [hfuncs] at hgs
  obtain ⟨_, _, ⟨_, -, rfl⟩, -, rfl⟩ := hgs
  obtain ⟨t, ts, hkey, -, rfl⟩ := List.forall₂_cons_left_iff.1 hm'
  obtain ⟨hfunc, hpos⟩ := Leaf.matches_key.1 hkey
  obtain ⟨body, last', heq, hlast, -⟩ := ht'
  cases body with
  | nil =>
      obtain ⟨rfl, -⟩ := List.cons.inj heq
      rw [hfunc] at hlast
      cases hlast
  | cons t' body =>
      obtain rfl : ts = body ++ [last'] := (List.cons.inj heq).2
      obtain rfl : t = t' := (List.cons.inj heq).1
      obtain ⟨s, hs, -, hrun⟩ := Parser.run_terminated (us ++ vs ++ t :: body) hlast
      obtain ⟨ha, -⟩ := List.append_inj' hs rfl
      rw [List.append_assoc] at ha
      obtain ⟨s₁, hy, ha₁, -⟩ := TokenStream.yields_of_ahead ha hus
      obtain ⟨s₂, hz, ha₂, -⟩ := TokenStream.yields_of_ahead ha₁ (Leaf.matches_of_pin hvs)
      have hcurrent : s₂.current = t := by simp [TokenStream.current, ha₂]
      have hrefused := Parser.program_of_late_function hfs hy hrows h hz (by rw [hcurrent, hfunc])
      refine ⟨TokenKind.listed (Rule.first .stmt ++ [.eof]), t.text, ?_⟩
      have htokens : us ++ vs ++ t :: (body ++ [last']) = us ++ vs ++ t :: body ++ [last'] := by
        simp
      rw [Program.ofTokens, htokens, hrun, hrefused, ← hpos, ← hfunc]
      simp [TokenStream.mismatch, hcurrent, hfunc, Except.map]

end Tokens

theorem Program.exists_tokenize {source : String} {p : Program Position}
    (h : Program.parse limits source = .ok p) :
    ∃ tokens, tokenize source = .ok tokens ∧ Program.ofTokens limits tokens = .ok p := by
  cases htokens : tokenize source with
  | error e =>
      rw [Program.parse, htokens] at h
      cases h
  | ok tokens =>
      rw [Program.parse, htokens] at h
      exact ⟨tokens, rfl, h⟩

/-- The tokens of a text on the lines below another one. -/
theorem Program.ofTokens_below (above : String) {source : String} {p : Program Position}
    {tokens : List (Token Position)} (h : tokenize source = .ok tokens)
    (hp : Program.ofTokens limits tokens = .ok p) :
    Terminated (tokens.map (Token.map (Position.below above))) ∧
      Program.ofTokens limits (tokens.map (Token.map (Position.below above))) =
        .ok (p.map (Position.below above)) := by
  obtain ⟨body, last, rfl, hlast, hbody⟩ := Lexer.scan_spec h
  constructor
  · refine ⟨body.map (Token.map (.below above)), last.map (.below above), by simp, hlast, ?_⟩
    intro _ ht
    obtain ⟨t, hmem, rfl⟩ := List.mem_map.1 ht
    exact (hbody t hmem).1
  · rw [Program.ofTokens_map _ (by simp), hp]
    rfl

/-- The tokens of two texts, when the second one is put on the lines below the first. -/
theorem Program.exists_tokens_of_lines {source source' : String} {p p' : Program Position}
    (h : Program.parse limits source = .ok p) (h' : Program.parse limits source' = .ok p') :
    ∃ body last tokens, Terminated (body ++ [last]) ∧ Terminated tokens ∧
      Program.ofTokens limits (body ++ [last]) = .ok p ∧
      Program.ofTokens limits tokens = .ok (p'.map (Position.below source)) ∧
      Program.parse limits (source ++ "\n" ++ source') =
        Program.ofTokens limits (body ++ tokens) := by
  obtain ⟨tokens, htokens, hp⟩ := Program.exists_tokenize h
  obtain ⟨tokens', htokens', hp'⟩ := Program.exists_tokenize h'
  obtain ⟨body, last, rfl, hlast, hbody⟩ := Lexer.scan_spec htokens
  have ht : Terminated (body ++ [last]) := ⟨body, last, rfl, hlast, fun t ht => (hbody t ht).1⟩
  obtain ⟨ht', hq⟩ := Program.ofTokens_below source htokens' hp'
  refine ⟨body, last, _, ht, ht', hp, hq, ?_⟩
  rw [Program.parse, tokenize_lines htokens htokens', List.dropLast_concat]
  rfl

theorem Program.parse_followedBy {source source' : String} {p p' : Program Position}
    (h : Program.parse limits source = .ok p) (h' : Program.parse limits source' = .ok p')
    (hjoin : p.body.statements = [] ∨ p'.functions = []) :
    Program.parse limits (source ++ "\n" ++ source') =
      .ok (p.followedBy (p'.map (Position.below source))) := by
  obtain ⟨body, last, tokens, ht, ht', hp, hq, hparse⟩ := Program.exists_tokens_of_lines h h'
  rw [hparse]
  apply Program.ofTokens_append ht ht' hp hq
  simpa [Program.map] using hjoin

/-- What two texts stand for when the second one is put on the lines below the first. Places in the
second program move along with it, lines modulo `2 ^ 32` as in every text, and nothing else
changes. -/
theorem Program.parse_lines {source source' : String} {p p' : Program Position}
    (h : Program.parse limits source = .ok p) (h' : Program.parse limits source' = .ok p') :
    let q := p'.map (Position.below source)
    (p.body.statements = [] ∨ p'.functions = [] →
      Program.parse limits (source ++ "\n" ++ source') = .ok (p.followedBy q)) ∧
    (p.body.statements ≠ [] → ∀ f ∈ q.functions.head?, ∃ expected text,
      Program.parse limits (source ++ "\n" ++ source') =
        .error ⟨.unexpected expected .func text, f.pos⟩) := by
  intro q
  refine ⟨Program.parse_followedBy h h', fun hne f hf => ?_⟩
  obtain ⟨body, last, tokens, ht, ht', hp, hq, hparse⟩ := Program.exists_tokens_of_lines h h'
  rw [hparse]
  exact Program.ofTokens_append_late ht ht' hp hq hne hf

/-- A statement with a comment behind it, and a function. Only the function can come first. -/
theorem Program.parse_lines_callSample :
    let p : Program Position := ⟨[], ⟨[.print (.named ⟨"a", ⟨1, 7, 6⟩⟩) ⟨1, 1, 0⟩], ⟨1, 1, 0⟩⟩⟩
    let f : Function Position := ⟨⟨"f", ⟨1, 5, 4⟩⟩, [], ⟨[], ⟨1, 10, 9⟩⟩, ⟨1, 1, 0⟩⟩
    let p' : Program Position := ⟨[f], ⟨[], ⟨1, 11, 10⟩⟩⟩
    Program.parse {} "print(a); // é" = .ok p ∧ Program.parse {} "fun f() \x7b\x7d" = .ok p' ∧
      Program.parse {} ("fun f() \x7b\x7d" ++ "\n" ++ "print(a); // é") =
        .ok ⟨[f], ⟨[.print (.named ⟨"a", ⟨2, 7, 17⟩⟩) ⟨2, 1, 11⟩], ⟨2, 1, 11⟩⟩⟩ ∧
      ∃ expected text, Program.parse {} ("print(a); // é" ++ "\n" ++ "fun f() \x7b\x7d") =
        .error ⟨.unexpected expected .func text, ⟨2, 1, 16⟩⟩ := by
  intro p f p'
  have h : Program.parse {} "print(a); // é" = .ok p := by decide +kernel
  have h' : Program.parse {} "fun f() \x7b\x7d" = .ok p' := by decide +kernel
  refine ⟨h, h', (Program.parse_lines h' h).1 (.inl rfl), ?_⟩
  exact (Program.parse_lines h h').2 (by simp [p]) _ rfl

end ActorLang
