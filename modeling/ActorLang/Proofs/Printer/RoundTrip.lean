import ActorLang.Proofs.Frontier
import ActorLang.Proofs.Printer.Places
import ActorLang.Proofs.Printer.Row
import ActorLang.Proofs.Relocate

/-!
# Printing and parsing

A well-formed program is read back from its printed text: the result has the shape of the program
with the added parentheses as nodes, and so it groups all operands as the program does. A program
that was read from a text is printed and read back unchanged if and only if it declares and calls no
function by a fused name, since such a name becomes a keyword when the printer puts the parenthesis
right behind it.
-/

namespace ActorLang

variable {P : Type} {limits : Limits}

/-! ## The parser on a printed text -/

/-- A program that declares and calls no function by a fused name, with names and literals that are
lexemes of their class, a verdict in every list of verdicts, an entry in every argument map, and no
name alone assigned as an artifact. -/
structure Program.WellFormed (p : Program P) : Prop where
  lexical : ∀ l ∈ p.frontier, l.Lexical
  filled : p.Filled Expr.Filled
  unfused : ∀ x ∈ p.callees, x ∉ Lexer.fusedNames

theorem terminated_of_tokenize {source : String} {tokens : List (Token Position)}
    (h : tokenize source = .ok tokens) : Terminated (tokens.map Token.shape) := by
  obtain ⟨body, last, rfl, hlast, hbody⟩ := Lexer.scan_spec h
  refine ⟨body.map Token.shape, last.shape, by simp, hlast, ?_⟩
  intro _ ht
  obtain ⟨t, hmem, rfl⟩ := List.mem_map.1 ht
  exact (hbody t hmem).1

/-- A text is parsed to a tree of some shape if its tokens, apart from their places, match a row of
that shape. -/
theorem Program.parse_eq_ok {source : String} {tokens : List (Token Position)}
    (h : tokenize source = .ok tokens) {q : Program Unit} :
    (∃ p, Program.parse limits source = .ok p ∧ p.shape = q) ↔
      ∃ ls, q.Spelling limits ls ∧ List.Forall₂ Leaf.Matches ls (tokens.map Token.shape) := by
  have hterm := terminated_of_tokenize h
  have hne : tokens ≠ [] := by
    rintro rfl
    obtain ⟨body, last, heq, -⟩ := hterm
    simp at heq
  rw [← Program.ofTokens_eq_ok hterm]
  have hmap : Program.ofTokens limits (tokens.map Token.shape) = _ :=
    Program.ofTokens_map (fun _ : Position => ()) hne
  have hparse : Program.parse limits source = Program.ofTokens limits tokens := by
    rw [Program.parse, h]
    rfl
  rw [hmap, hparse]
  cases Program.ofTokens limits tokens with
  | error e =>
      refine iff_of_false (fun ⟨p, hp, _⟩ => ?_) fun hq => ?_
      · cases hp
      · cases hq
  | ok p =>
      constructor
      · rintro ⟨_, ⟨⟩, rfl⟩
        rfl
      · intro hq
        exact ⟨p, rfl, Except.ok.inj hq⟩

/-- The tokens of the printed form are those that the tree knows of. -/
theorem Program.tokenize_render {p : Program P} (h : ∀ l ∈ p.shape.frontier, l.Lexical)
    (layout : Layout) :
    ∃ tokens, tokenize (p.render layout) = .ok tokens ∧
      List.Forall₂ Leaf.Matches (p.shape.grouped.leaves .printed) (tokens.map Token.shape) := by
  have hrender : p.shape.render layout = p.render layout := p.render_map _ layout
  rw [← hrender]
  exact Program.lexes_render h layout .start

/-- The printed form is read back as the same tree with its printed parentheses. -/
theorem Program.WellFormed.exists_parse {p : Program P} (h : p.shape.WellFormed)
    (hl : 2 ≤ limits.lookahead) (hd : p.shape.grouped.depth ≤ limits.depth) (layout : Layout) :
    ∃ p', Program.parse limits (p.render layout) = .ok p' ∧ p'.shape = p.shape.grouped := by
  obtain ⟨tokens, htokens, hmatch⟩ := p.tokenize_render h.lexical layout
  refine (Program.parse_eq_ok htokens).2 ⟨_, ?_, hmatch⟩
  have hcallees : ∀ x ∈ p.shape.grouped.callees, x ∉ Lexer.fusedNames := by
    rw [Program.grouped, Program.callees_mapExprs]
    exact h.unfused
  exact Program.spelling_printed hl (h.filled.mapExprs fun _ => Expr.normal_grouped) hd hcallees

/-- A well-formed program is read back from its printed text, with the added parentheses as nodes,
if and only if the room for nesting admits them. -/
theorem Program.parse_render {p : Program P} (h : p.shape.WellFormed)
    (hl : 2 ≤ limits.lookahead) (layout : Layout) :
    p.shape.grouped.depth ≤ limits.depth ↔
      ∃ p', Program.parse limits (p.render layout) = .ok p' ∧ p'.shape = p.shape.grouped ∧
        p'.shape.bare = p.shape.bare ∧ (p.shape.Filled Expr.Normal → p'.shape = p.shape) := by
  constructor
  · intro hd
    obtain ⟨p', hparse, hshape⟩ := h.exists_parse hl hd layout
    refine ⟨p', hparse, hshape, ?_, fun hnormal => ?_⟩
    · rw [hshape, Program.bare_grouped]
    · rw [hshape]
      exact hnormal.mapExprs_eq fun _ => Expr.Normal.grouped_eq
  · rintro ⟨p', hparse, hshape, -⟩
    obtain ⟨tokens, htokens, -⟩ := p.tokenize_render h.lexical layout
    obtain ⟨ls, hspelling, -⟩ := (Program.parse_eq_ok htokens).1 ⟨p', hparse, hshape⟩
    exact hspelling.filled.2

/-- A function, operands that need parentheses on both sides, and a name assigned as an actor. -/
def Program.groupingSample : Program Unit where
  functions := [⟨⟨"f", ()⟩, [⟨"a", ()⟩], ⟨[.ret ⟨"a", ()⟩ ()], ()⟩, ()⟩]
  body :=
    ⟨[.assign ⟨"x", ()⟩ (.expression (.binary
        (.binary (.named ⟨"a", ()⟩) .and () (.not (.named ⟨"b", ()⟩) ())) .eq ()
        (.binary (.named ⟨"c", ()⟩) .or () (.elementOf ⟨"d", ()⟩ [.true] ())))),
      .assign ⟨"y", ()⟩ (.actor (.named ⟨"print", ()⟩)),
      .execute (.call ⟨"f", ()⟩ [⟨"x", ()⟩])
        (.argMap ⟨[⟨⟨"k", ()⟩, some (.artifactType ⟨"Report", ()⟩)⟩], ()⟩) ()], ()⟩

theorem Program.wellFormed_groupingSample : Program.groupingSample.shape.WellFormed where
  lexical := by decide +kernel
  filled := by
    simp [Filled, statements, groupingSample, shape, Program.map, Function.map, Block.map,
      Statement.map, Assignable.map, Expr.map, Actor.map, Inputs.map, ArgMap.map,
      Statement.Filled, Assignable.Filled, Expr.Filled, Actor.Filled, Inputs.Filled]
  unfused := by decide +kernel

theorem Program.parse_render_groupingSample :
    Program.groupingSample.shape.WellFormed ∧ Program.groupingSample.shape.grouped.depth ≤ 4 ∧
      ∃ p', Program.parse ⟨2, 4⟩ (Program.groupingSample.render ⟨2⟩) = .ok p' ∧
        p'.shape = Program.groupingSample.shape.grouped ∧
        p'.shape.bare = Program.groupingSample.shape.bare ∧
        (Program.groupingSample.shape.Filled Expr.Normal →
          p'.shape = Program.groupingSample.shape) := by
  have hdepth : Program.groupingSample.shape.grouped.depth ≤ 4 := by decide
  exact ⟨wellFormed_groupingSample, hdepth,
    (Program.parse_render wellFormed_groupingSample (Nat.le_refl 2) ⟨2⟩).1 hdepth⟩

/-! ## Formatting a text that parses -/

open Leaf

/-- Only parentheses are taken away, no names. -/
theorem Token.count_ident_unwrapped (tokens : List (Token P)) :
    ((Token.unwrapped tokens).map Token.kind).count .ident =
      (tokens.map Token.kind).count .ident := by
  unfold Token.unwrapped
  generalize ([] : List Bool) = opened
  fun_induction Token.unwrap opened tokens <;> simp_all [List.count_cons]

def Leaf.names (ls : List (Leaf P)) : Nat :=
  (ls.map Leaf.kind).count .ident

@[simp] theorem Leaf.names_nil : names ([] : List (Leaf P)) = 0 := rfl

@[simp] theorem Leaf.names_cons (l : Leaf P) (ls : List (Leaf P)) :
    names (l :: ls) = names ls + if l.kind = .ident then 1 else 0 := by
  simp [names, List.count_cons]

@[simp] theorem Leaf.names_append (ls ms : List (Leaf P)) :
    names (ls ++ ms) = names ls + names ms := by
  simp [names]

@[simp] theorem Leaf.names_pin (pos : P) (ls : List (Leaf P)) : names (pin pos ls) = names ls := by
  simp [names]

/-- The number of functions in a list that have fused names. -/
def Lexer.fusions (callees : List String) : Nat :=
  callees.countP (· ∈ fusedNames)

theorem Lexer.fusions_eq_zero {callees : List String} :
    fusions callees = 0 ↔ ∀ x ∈ callees, x ∉ fusedNames := by
  simp [fusions, List.countP_eq_zero]

@[simp] theorem Lexer.fusions_nil : fusions [] = 0 := rfl

@[simp] theorem Lexer.fusions_cons (x : String) (xs : List String) :
    fusions (x :: xs) = fusions xs + if x ∈ fusedNames then 1 else 0 := by
  simp [fusions, List.countP_cons]

@[simp] theorem Lexer.fusions_append (xs ys : List String) :
    fusions (xs ++ ys) = fusions xs + fusions ys := by
  simp [fusions]

/-- In the printed row a fused name is missing. -/
theorem Script.names_printed_call (name : Ident P) :
    names (Script.printed.call name) + Lexer.fusions [name.name] =
      names (Script.plain.call name) := by
  by_cases h : name.name ∈ Lexer.fusedNames
  · have hnames : names (Script.printed.call name) = 0 := by
      simp only [Lexer.fusedNames, List.mem_cons, List.not_mem_nil, or_false] at h
      rcases h with h | h <;> simp [Script.printed, h]
    simp [hnames, h, Ident.leaf]
  · simp [Script.printed_call h, h]

theorem Actor.names_printed (a : Actor P) :
    names (a.leaves .printed) + Lexer.fusions a.callees = names (a.leaves .plain) := by
  induction a with
  | call name args =>
      have hcall := Script.names_printed_call name
      simp only [Actor.leaves, Actor.callees, names_append] at hcall ⊢
      omega
  | identity a pos ih => simpa [Actor.leaves, Actor.callees] using ih
  | iterate watched a pos ih =>
      simp [Actor.leaves, Actor.callees]
      omega
  | parens a pos ih => simpa [Actor.leaves, Actor.callees] using ih
  | sequence a b pos iha ihb =>
      simp [Actor.leaves, Actor.callees]
      omega
  | parallel a b pos iha ihb =>
      simp [Actor.leaves, Actor.callees]
      omega
  | ifThenElse e a b pos iha ihb =>
      simp [Actor.leaves, Actor.callees]
      omega
  | _ => rfl

theorem Statement.names_printed (st : Statement P) :
    names (st.leaves .printed) + Lexer.fusions st.callees = names (st.leaves .plain) := by
  cases st with
  | assign target value =>
      cases value with
      | actor a =>
          have ha := a.names_printed
          simp only [Statement.leaves, Assignable.leaves, Statement.callees]
          split
          · simp [Script.printed]
            simp [Script.printed] at ha
            omega
          · simp
            omega
      | _ => rfl
  | print a pos =>
      have ha := a.names_printed
      simp [Statement.leaves, Statement.callees]
      omega
  | execute a inputs pos =>
      have ha := a.names_printed
      simp [Statement.leaves, Statement.callees]
      omega
  | ret => rfl

theorem Block.names_printed (b : Block P) (closer : TokenKind) :
    names (b.leaves .printed closer) + Lexer.fusions b.callees =
      names (b.leaves .plain closer) := by
  simp only [Block.leaves, Block.callees, names_pin]
  induction b.statements with
  | nil => rfl
  | cons st sts ih =>
      have hst := st.names_printed
      simp at ih ⊢
      omega

/-- Each fused name costs the printed form one name. The count tells fused programs from others. -/
theorem Program.names_printed (p : Program P) :
    names (p.leaves .printed) + Lexer.fusions p.callees = names (p.leaves .plain) := by
  have hbody := p.body.names_printed .eof
  simp only [Program.leaves, Program.callees]
  induction p.functions with
  | nil => simpa using hbody
  | cons f fs ih =>
      have hname := Script.names_printed_call f.name
      have hf := f.body.names_printed .rbrace
      simp [Function.leaves] at ih hname ⊢
      omega

theorem Leaf.lexical_of_matches {ls : List (Leaf P)} {ts : List (Token P)}
    (h : List.Forall₂ Matches ls ts)
    (hts : ∀ t ∈ ts, t.kind.worded = true → Lexer.IsLexeme t.kind t.text) :
    ∀ l ∈ ls, l.Lexical := by
  induction h with
  | nil => simp
  | @cons l t ls ts hl _ ih =>
      obtain ⟨ht, hts⟩ := List.forall_mem_cons.1 hts
      refine List.forall_mem_cons.2 ⟨fun hworded x hx => ?_, ih hts⟩
      rw [← hl.kind] at hworded ⊢
      rw [← hl.text x hx]
      exact ht hworded

/-- The names and literals of a program that was read from a text are lexemes of the text. -/
theorem Program.Spelling.lexical {p : Program Unit} {ls : List (Leaf Unit)} {source : String}
    {tokens : List (Token Position)} (h : p.Spelling limits ls)
    (hm : List.Forall₂ Leaf.Matches ls (tokens.map Token.shape))
    (htokens : tokenize source = .ok tokens) : ∀ l ∈ p.frontier, l.Lexical := by
  refine Leaf.lexical_of_matches (h.strips.unwrapped hm) fun t ht hworded => ?_
  obtain ⟨u, hu, rfl⟩ := List.mem_map.1 ((Token.unwrap_sublist _ _).subset ht)
  obtain ⟨body, last, rfl, hlast, hbody⟩ := Lexer.scan_spec htokens
  rcases List.mem_append.1 hu with hu | hu
  · exact (hbody u hu).2
  · rw [List.mem_singleton.1 hu] at hworded
    have hkind : last.shape.kind = .eof := hlast
    rw [hkind] at hworded
    cases hworded

/-- A printed text is read as a program of the same shape only if no name was lost. -/
theorem Program.fusions_eq_zero {p : Program Unit} {ts : List (Token Unit)}
    (hprinted : List.Forall₂ Leaf.Matches (p.leaves .printed) ts) {ls : List (Leaf Unit)}
    (h : p.Spelling limits ls) (hm : List.Forall₂ Leaf.Matches ls ts) :
    Lexer.fusions p.callees = 0 := by
  have hcount : names (p.leaves .printed) = names (p.leaves .plain) := by
    unfold names
    rw [map_kind_of_matches hprinted, ← Token.count_ident_unwrapped,
      ← map_kind_of_matches (h.strips.unwrapped hm), Program.frontier]
  have hnames := p.names_printed
  omega

/-- A program that was read from a text is printed and read back unchanged, within the same limits,
if and only if it neither declares nor calls a function by a fused name. -/
theorem Program.parse_render_parse {source : String} {p : Program Position}
    (h : Program.parse limits source = .ok p) (hl : 2 ≤ limits.lookahead) (layout : Layout) :
    (∀ x ∈ p.callees, x ∉ Lexer.fusedNames) ↔
      ∃ p', Program.parse limits (p.render layout) = .ok p' ∧ p'.shape = p.shape ∧
        p'.render layout = p.render layout := by
  obtain ⟨tokens, htokens⟩ : ∃ tokens, tokenize source = .ok tokens := by
    cases htokens : tokenize source with
    | ok tokens => exact ⟨tokens, rfl⟩
    | error e =>
        rw [Program.parse, htokens] at h
        cases h
  obtain ⟨ls, hspelling, hmatch⟩ := (Program.parse_eq_ok htokens).1 ⟨p, h, rfl⟩
  obtain ⟨hnormal, hdepth⟩ := hspelling.filled
  have hlexical := hspelling.lexical hmatch htokens
  have hgrouped : p.shape.grouped = p.shape := hnormal.mapExprs_eq fun _ => Expr.Normal.grouped_eq
  have hcallees : p.shape.callees = p.callees := p.callees_map _
  obtain ⟨printed, hprinted, hrow⟩ := p.tokenize_render hlexical layout
  rw [hgrouped] at hrow
  constructor
  · intro hunfused
    rw [← hcallees] at hunfused
    obtain ⟨p', hparse, hshape⟩ := (Program.parse_eq_ok hprinted).2
      ⟨_, Program.spelling_printed hl hnormal hdepth hunfused, hrow⟩
    refine ⟨p', hparse, hshape, ?_⟩
    rw [← p.render_map (fun _ => ()), ← p'.render_map (fun _ => ())]
    exact congrArg (Program.render layout) hshape
  · rintro ⟨p', hparse, hshape, -⟩
    obtain ⟨ms, hms, hmatch'⟩ := (Program.parse_eq_ok hprinted).1 ⟨p', hparse, hshape⟩
    rw [← hcallees, ← Lexer.fusions_eq_zero]
    exact Program.fusions_eq_zero hrow hms hmatch'

def Program.fusedSample : Program Position where
  functions := [⟨⟨"print", ⟨1, 5, 4⟩⟩, [], ⟨[], ⟨2, 1, 14⟩⟩, ⟨1, 1, 0⟩⟩]
  body := ⟨[], ⟨4, 1, 17⟩⟩

theorem Program.not_parse_render_fusedSample :
    Program.parse ⟨64, 256⟩ "fun print ()\x7b\n\x7d\n\n" = .ok Program.fusedSample ∧
      Program.fusedSample.render ⟨4⟩ = "fun print() \x7b\n\x7d\n\n" ∧
      ¬ ∃ p', Program.parse ⟨64, 256⟩ (Program.fusedSample.render ⟨4⟩) = .ok p' ∧
        p'.shape = Program.fusedSample.shape ∧
        p'.render ⟨4⟩ = Program.fusedSample.render ⟨4⟩ := by
  have hparse : Program.parse ⟨64, 256⟩ "fun print ()\x7b\n\x7d\n\n" = .ok Program.fusedSample := by
    decide +kernel
  refine ⟨hparse, by decide +kernel, fun hback => ?_⟩
  exact (Program.parse_render_parse hparse (by decide) ⟨4⟩).2 hback "print" (by decide) (by decide)

end ActorLang
