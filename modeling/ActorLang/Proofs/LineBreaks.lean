import ActorLang.Proofs.Lexer.Layout
import ActorLang.Proofs.Lexer.Quoted
import ActorLang.Proofs.Lint
import ActorLang.Proofs.Outline.Shape

/-!
# Line feeds in tokens

The scanner refuses a line feed in a string, unless it stands behind a backslash that takes it
along. This is the only way in which a token comes to run over two lines. What is shown of a program
contains every text of its tokens and no line feed besides, so the lines of an outline and the text
of a statement are broken by such a string and by nothing else.
-/

namespace ActorLang

open Leaf Lexer Quoted

variable {P α : Type}

/-- A backslash in the literal takes a line feed along. -/
def Token.HidesLine (t : Token P) : Prop :=
  t.kind = .str ∧ ∃ inner, t.text.toList = '"' :: (inner ++ ['"']) ∧
    Item.escaped '\n' ∈ items inner

/-! ## Tokens -/

theorem Quoted.mem_of_escaped {c : Char} {text : List Char} (h : Item.escaped c ∈ items text) :
    c ∈ text := by
  fun_induction items text with
  | case1 | case2 => simp at h
  | case3 d rest ih =>
      rcases List.mem_cons.1 h with heq | h
      · obtain rfl := Item.escaped.inj heq
        simp
      · simp [ih h]
  | case4 d rest hlone hescape ih =>
      have hrest : Item.escaped c ∈ items rest := by simpa using h
      exact List.mem_cons_of_mem _ (ih hrest)

namespace Lexer

/-- A line feed that no backslash takes along would have ended the literal. -/
theorem Items.plain_line_not_mem {text : List Char} (h : Items text) :
    Item.plain '\n' ∉ items text := by
  induction h with
  | nil => simp [items]
  | escape c h ih => simpa [items] using ih
  | plain hquote hescape hline h ih => simp [items, hescape, ih, Ne.symm hline]

/-- In a string every line feed stands behind a backslash. -/
theorem Items.escaped_of_line {text : List Char} (h : Items text) (hline : '\n' ∈ text) :
    Item.escaped '\n' ∈ items text := by
  induction h with
  | nil => cases hline
  | @escape c text h ih =>
      have hmem : '\n' = c ∨ '\n' ∈ text := by simpa using hline
      rcases hmem with rfl | hmem
      · simp [items]
      · simp [items, ih hmem]
  | plain hquote hescape hc h ih =>
      have hmem := List.mem_of_ne_of_mem (Ne.symm hc) hline
      simp [items, hescape, ih hmem]

theorem wordKind_ne_str (word : String) : wordKind word ≠ .str := by
  unfold wordKind
  split
  all_goals
    try split
    all_goals simp

/-- A literal is a number or stands between quotes. -/
theorem Lexeme.str_cases {text : List Char} (h : Lexeme .str text) :
    (text ≠ [] ∧ ∀ c ∈ text, c.isDigit = true) ∨
      ∃ inner, Items inner ∧ text = '"' :: (inner ++ ['"']) := by
  generalize hk : TokenKind.str = k at h
  cases h with
  | digits hc h => exact .inl ⟨List.cons_ne_nil _ _, List.forall_mem_cons.2 ⟨hc, h⟩⟩
  | quoted h => exact .inr ⟨_, h, rfl⟩
  | word => exact absurd hk.symm (wordKind_ne_str _)
  | keyword h =>
      have hkeywords : ∀ k ∈ punctuatedKeywords, k.2 ≠ .str := by decide
      exact absurd hk.symm (hkeywords _ h)
  | punctuation h =>
      subst hk
      unfold punctuationKind? at h
      split at h
      all_goals cases h
  | operator | assign => cases hk

/-- Only a string has a line feed. -/
theorem Lexeme.exists_items_of_line {k : TokenKind} {text : List Char} (h : Lexeme k text)
    (hline : '\n' ∈ text) :
    k = .str ∧ ∃ inner, Items inner ∧ text = '"' :: (inner ++ ['"']) := by
  cases h with
  | quoted h => exact ⟨rfl, _, h, rfl⟩
  | keyword h =>
      have hkeywords : ∀ k ∈ punctuatedKeywords, '\n' ∉ k.1.toList := by decide
      exact absurd hline (hkeywords _ h)
  | @word c text hc h =>
      have hword : isWordChar '\n' = true := by
        rcases List.mem_cons.1 hline with rfl | hline
        · exact isWordChar_iff.2 (.inl hc)
        · exact h _ hline
      exact absurd hword (by decide)
  | @digits c text hc h =>
      have hdigit : '\n'.isDigit = true := by
        rcases List.mem_cons.1 hline with rfl | hline
        · exact hc
        · exact h _ hline
      exact absurd hdigit (by decide)
  | operator hc => rcases hc with rfl | rfl <;> exact absurd hline (by decide)
  | assign => exact absurd hline (by decide)
  | punctuation h =>
      obtain rfl := List.mem_singleton.1 hline
      cases h

end Lexer

/-- A line feed gets into a token only by way of a backslash. -/
theorem Token.hidesLine_iff {source : String} {tokens : List (Token Position)}
    (h : tokenize source = .ok tokens) {t : Token Position} (ht : t ∈ tokens) :
    '\n' ∈ t.text.toList ↔ t.HidesLine := by
  constructor
  · intro hline
    obtain ⟨body, pos, rfl, hbody⟩ := exists_body_of_tokenize h
    rcases List.mem_append.1 ht with ht | ht
    · obtain ⟨hkind, inner, hitems, htext⟩ :=
        (isLexeme_iff.1 (hbody t ht)).exists_items_of_line hline
      refine ⟨hkind, inner, htext, hitems.escaped_of_line ?_⟩
      simpa [htext] using hline
    · obtain rfl := List.mem_singleton.1 ht
      simp at hline
  · rintro ⟨-, inner, htext, hescaped⟩
    rw [htext]
    exact List.mem_cons_of_mem _ (List.mem_append_left _ (mem_of_escaped hescaped))

/-! ## Rows and what is shown of them -/

def Leaf.Breaks (l : Leaf P) : Prop :=
  ∃ x ∈ l.text, '\n' ∈ x.toList

def Leaf.Broken (ls : List (Leaf P)) : Prop :=
  ∃ l ∈ ls, l.Breaks

namespace Leaf

variable {l : Leaf P} {ls ms : List (Leaf P)}

@[simp] theorem not_breaks_mark (k : TokenKind) : ¬ (mark k : Leaf P).Breaks := by
  simp [Breaks, mark]

@[simp] theorem not_breaks_key (k : TokenKind) (pos : P) : ¬ (key k pos).Breaks := by
  simp [Breaks, key]

@[simp] theorem breaks_word {k : TokenKind} {x : String} {pos : P} :
    (word k x pos).Breaks ↔ '\n' ∈ x.toList := by
  simp [Breaks, word]

@[simp] theorem broken_nil : ¬ Broken ([] : List (Leaf P)) := by
  simp [Broken]

@[simp] theorem broken_cons : Broken (l :: ls) ↔ l.Breaks ∨ Broken ls := by
  simp [Broken]

@[simp] theorem broken_append : Broken (ls ++ ms) ↔ Broken ls ∨ Broken ms := by
  simp [Broken, or_and_right, exists_or]

@[simp] theorem broken_flatMap {f : α → List (Leaf P)} {as : List α} :
    Broken (as.flatMap f) ↔ ∃ a ∈ as, Broken (f a) := by
  induction as with
  | nil => simp
  | cons a as ih => simp [ih]

@[simp] theorem broken_commaRow {f : α → List (Leaf P)} {as : List α} :
    Broken (commaRow f as) ↔ ∃ a ∈ as, Broken (f a) := by
  cases as with
  | nil => simp [commaRow]
  | cons a as => simp [commaRow]

@[simp] theorem broken_pin {pos : P} : Broken (pin pos ls) ↔ Broken ls := by
  cases ls <;> simp [pin, Breaks]

end Leaf

/-- A text has a line feed if and only if the row that it shows has one. -/
def Shows (x : String) (ls : List (Leaf P)) : Prop :=
  '\n' ∈ x.toList ↔ Broken ls

namespace Shows

variable {x y : String} {ls ms : List (Leaf P)}

/-- A text of the printer itself. -/
theorem silent (h : '\n' ∉ x.toList) : Shows x ([] : List (Leaf P)) :=
  iff_of_false h broken_nil

theorem word (k : TokenKind) (x : String) (pos : P) : Shows x [Leaf.word k x pos] := by
  simp [Shows]

theorem append (hx : Shows x ls) (hy : Shows y ms) : Shows (x ++ y) (ls ++ ms) := by
  rw [Shows, String.toList_append, List.mem_append, broken_append]
  exact or_congr hx hy

theorem congr (h : Shows x ls) (he : Broken ls ↔ Broken ms) : Shows x ms :=
  h.trans he

theorem between (h : Shows x ls) {u v : String} (hu : '\n' ∉ u.toList) (hv : '\n' ∉ v.toList) :
    Shows (u ++ x ++ v) ls :=
  (((silent hu).append h).append (silent hv)).congr (by simp)

/-- Two texts in an argument list behind a keyword. -/
theorem pair (hx : Shows x ls) (hy : Shows y ms) {u : String} (hu : '\n' ∉ u.toList) :
    Shows (u ++ x ++ ", " ++ y ++ ")") (ls ++ ms) :=
  (((hx.between hu (by decide)).append hy).append (silent (by decide))).congr (by simp)

theorem commaList {f : α → String} {g : α → List (Leaf P)} {as : List α}
    (h : ∀ a ∈ as, Shows (f a) (g a)) :
    Shows (ActorLang.commaList (as.map f)) (commaRow g as) := by
  suffices hrow : Shows (ActorLang.commaList (as.map f)) (as.flatMap g) by
    exact hrow.congr (by simp)
  induction as with
  | nil => exact silent (x := "") (by decide)
  | cons a as ih =>
      obtain ⟨ha, has⟩ := List.forall_mem_cons.1 h
      obtain ⟨u, hu, -, ⟨rfl, hnil⟩ | ⟨rfl, -⟩⟩ := commaList_cons (f a) (as.map f)
      · obtain rfl := List.map_eq_nil_iff.1 hnil
        rw [List.map_cons, hu, String.append_empty, List.flatMap_cons]
        exact ha.congr (by simp)
      · rw [List.map_cons, hu]
        exact ha.append ((silent (by decide)).append (ih has))

end Shows

/-! ## What is printed -/

theorem Ident.shows (id : Ident P) : Shows id.name [id.leaf] :=
  .word ..

theorem TypeIdent.shows (type : TypeIdent P) : Shows type.name [type.leaf] :=
  .word ..

theorem Ident.shows_quoted (id : Ident P) : Shows id.quoted id.quotedLeaves :=
  (id.shows.between (by decide) (by decide)).congr (by simp [Ident.quotedLeaves])

theorem Ident.shows_row (ids : List (Ident P)) :
    Shows (inParens (commaList (ids.map Ident.name))) (Ident.row ids) := by
  have hnames := Shows.commaList fun id (_ : id ∈ ids) => id.shows
  exact hnames.between (by decide) (by decide)

theorem Verdict.shows_row (verdicts : List Verdict) :
    Shows (commaList (verdicts.map Verdict.text))
      (commaRow (fun v => [(v.leaf : Leaf P)]) verdicts) := by
  have hverdict : ∀ v : Verdict, Shows v.text [(v.leaf : Leaf P)] := by
    intro v
    simp [Shows, Breaks, Verdict.leaf]
  exact .commaList fun v _ => hverdict v

theorem Reference.shows (r : Reference P) : Shows r.render [r.leaf] := by
  cases r with
  | name id => exact id.shows
  | literal lit => exact .word ..

theorem Reference.shows_factory {x : String} (hx : '\n' ∉ x.toList) (k : TokenKind)
    (type : TypeIdent P) (source : Reference P) (pos : P) :
    Shows (x ++ type.name ++ ", " ++ source.render ++ ")") (source.factoryLeaves k type pos) :=
  (type.shows.pair source.shows hx).congr (by simp [Reference.factoryLeaves])

theorem Artifact.shows (a : Artifact P) : Shows a.render a.leaves := by
  cases a with
  | literal type source pos => exact source.shows_factory (by decide) _ type pos
  | named id => exact id.shows

theorem MapValue.shows (v : MapValue P) : Shows v.render v.leaves := by
  cases v with
  | artifact a => exact a.shows
  | artifactType type => exact type.shows
  | quoted id => exact id.shows_quoted

theorem MapItem.shows (i : MapItem P) : Shows i.render i.leaves := by
  obtain ⟨key, value⟩ := i
  cases value with
  | none => exact key.shows_quoted.congr (by simp [MapItem.leaves])
  | some value =>
      have hkey := key.shows_quoted.append (.silent (x := ": ") (by decide))
      exact (hkey.append value.shows).congr (by simp [MapItem.leaves])

theorem ArgMap.shows (m : ArgMap P) : Shows m.render m.leaves := by
  have hitems := Shows.commaList fun i (_ : i ∈ m.items) => i.shows
  exact (hitems.between (by decide) (by decide)).congr (by simp [ArgMap.leaves])

theorem Expr.shows (e : Expr P) : Shows e.render e.leaves := by
  have hgroup : ∀ {x : String} {ls : List (Leaf P)} (b : Bool), Shows x ls →
      Shows (if b then inParens x else x) ls := by
    intro x ls b h
    cases b with
    | false => exact h
    | true => exact h.between (by decide) (by decide)
  induction e with
  | not operand pos ih =>
      exact ((Shows.silent (by decide)).append ih).congr (by simp [Expr.leaves])
  | instanceOf subject type pos =>
      exact (subject.shows.pair type.shows (by decide)).congr (by simp [Expr.leaves])
  | elementOf subject verdicts pos =>
      have hsubject := subject.shows.between (u := "ELEMENTOF(") (v := ", \x7b") (by decide)
        (by decide)
      refine ((hsubject.append (Verdict.shows_row verdicts)).append (.silent (by decide))).congr ?_
      simp [Expr.leaves]
  | named id => exact id.shows
  | parens inner pos ih =>
      exact (ih.between (by decide) (by decide)).congr (by simp [Expr.leaves])
  | binary left op opPos right ihl ihr =>
      have hop := (((hgroup left.endsInNot ihl).append (.silent (x := " ") (by decide))).append
        (.word .binOp op.text opPos)).append (.silent (x := " ") (by decide))
      exact (hop.append (hgroup right.isBinary ihr)).congr (by simp [Expr.leaves])

theorem Actor.shows (a : Actor P) : Shows a.render (a.leaves .plain) := by
  induction a with
  | atomic type source pos => exact source.shows_factory (by decide) _ type pos
  | call name args =>
      exact (name.shows.append (Ident.shows_row args)).congr (by simp [Actor.leaves])
  | joiner type merge output pos =>
      have htype := type.shows.between (u := "Joiner(") (v := ", ") (by decide) (by decide)
      have hmerge := (htype.append merge.shows).append (.silent (x := ", ") (by decide))
      refine ((hmerge.append output.shows_quoted).append (.silent (by decide))).congr ?_
      simp [Actor.leaves]
  | copy map pos | rename map pos | identityMap map pos =>
      exact (map.shows.between (by decide) (by decide)).congr (by simp [Actor.leaves])
  | testSpecToSpec pos =>
      exact (Shows.silent (x := "TestSpecToSpec()") (by decide)).congr (by simp [Actor.leaves])
  | specToTestSpec pos =>
      exact (Shows.silent (x := "SpecToTestSpec()") (by decide)).congr (by simp [Actor.leaves])
  | identity target pos ih =>
      exact (ih.between (by decide) (by decide)).congr (by simp [Actor.leaves])
  | sequence first second pos ih₁ ih₂ | parallel first second pos ih₁ ih₂ =>
      exact (ih₁.pair ih₂ (by decide)).congr (by simp [Actor.leaves])
  | ifThenElse condition thenActor elseActor pos ih₁ ih₂ =>
      have hcondition := condition.shows.between (u := "ITE(") (v := ", ") (by decide) (by decide)
      have hthen := (hcondition.append ih₁).append (.silent (x := ", ") (by decide))
      refine ((hthen.append ih₂).append (.silent (by decide))).congr ?_
      simp [Actor.leaves]
  | iterate watched body pos ih =>
      exact (watched.shows_quoted.pair ih (by decide)).congr (by simp [Actor.leaves])
  | named id => exact id.shows
  | parens inner pos ih =>
      exact (ih.between (by decide) (by decide)).congr (by simp [Actor.leaves])

theorem Assignable.shows (v : Assignable P) : Shows v.render (v.leaves .plain) := by
  cases v with
  | expression e => exact e.shows
  | artifact a => exact a.shows
  | argMap m => exact m.shows
  | literal l => exact .word ..
  | actor a =>
      simp only [Assignable.render, Assignable.leaves, Script.plain_lone, ite_self]
      split
      · exact a.shows.between (by decide) (by decide)
      · exact a.shows

theorem Inputs.shows (i : Inputs P) : Shows i.render i.leaves := by
  cases i with
  | named id => exact id.shows
  | argMap m => exact m.shows

theorem Statement.shows (st : Statement P) : Shows st.render (st.leaves .plain) := by
  cases st with
  | assign target value =>
      have htarget := target.shows.append (.silent (x := " = ") (by decide))
      exact (htarget.append value.shows).congr (by simp [Statement.leaves])
  | print actor pos =>
      exact (actor.shows.between (by decide) (by decide)).congr (by simp [Statement.leaves])
  | execute actor inputs pos =>
      exact (actor.shows.pair inputs.shows (by decide)).congr (by simp [Statement.leaves])
  | ret value pos =>
      exact ((Shows.silent (by decide)).append value.shows).congr (by simp [Statement.leaves])

/-! ## What an outline shows -/

/-- Some line of a walk shows a line feed if and only if the row of the walk has one. -/
def Displays (es : List (Event P)) (ls : List (Leaf P)) : Prop :=
  (∃ n, .enter n ∈ es ∧ ∃ x ∈ n.outlineDetail, '\n' ∈ x.toList) ↔ Broken ls

namespace Displays

variable {n : Node P} {es fs : List (Event P)} {ls ms : List (Leaf P)} {x : String}

theorem nil : Displays ([] : List (Event P)) [] := by
  simp [Displays]

theorem append (he : Displays es ls) (hf : Displays fs ms) : Displays (es ++ fs) (ls ++ ms) := by
  unfold Displays at he hf ⊢
  rw [broken_append, ← he, ← hf]
  simp only [List.mem_append, or_and_right, exists_or]

theorem congr (h : Displays es ls) (he : Broken ls ↔ Broken ms) : Displays es ms :=
  h.trans he

theorem around_some (h : Displays es ms) (hx : Shows x ls) (hn : n.outlineDetail = some x) :
    Displays (n.around es) (ls ++ ms) := by
  unfold Displays Shows at *
  rw [broken_append, ← h, ← hx]
  simp [Node.around, hn, or_and_right, exists_or]

theorem around_none (h : Displays es ls) (hn : n.outlineDetail = none) :
    Displays (n.around es) ls := by
  unfold Displays at h ⊢
  rw [← h]
  simp [Node.around, hn, or_and_right, exists_or]

theorem flatMap {f : α → List (Event P)} {g : α → List (Leaf P)} {as : List α}
    (h : ∀ a ∈ as, Displays (f a) (g a)) : Displays (as.flatMap f) (as.flatMap g) := by
  induction as with
  | nil => exact nil
  | cons a as ih =>
      obtain ⟨ha, has⟩ := List.forall_mem_cons.1 h
      exact ha.append (ih has)

end Displays

theorem shows_outlineSignature (name : Ident P) (args : List (Ident P)) :
    Shows (outlineSignature name args) (name.leaf :: Ident.row args) :=
  name.shows.append (Ident.shows_row args)

theorem Literal.displays (l : Literal P) : Displays l.events [l.leaf] :=
  Displays.nil.around_some (.word ..) rfl

/-- The name of a source is in the line of its type, and a literal has a line of its own. -/
theorem Reference.displays {n : Node P} {type : TypeIdent P} {source : Reference P}
    (hn : n.outlineDetail = some (outlineOrigin type source)) :
    Displays (n.around source.events) [type.leaf, source.leaf] := by
  cases source with
  | name id =>
      have horigin := (type.shows.append (.silent (x := " ") (by decide))).append id.shows
      exact (Displays.nil.around_some horigin hn).congr (by simp [Reference.leaf])
  | literal lit => exact lit.displays.around_some type.shows hn

theorem Artifact.displays (a : Artifact P) : Displays a.events a.leaves := by
  cases a with
  | literal type source pos =>
      exact (Reference.displays rfl).congr (by simp [Artifact.leaves, Reference.factoryLeaves])
  | named id => exact Displays.nil.around_some id.shows rfl

theorem MapItem.displays (i : MapItem P) : Displays i.events i.leaves := by
  obtain ⟨key, value⟩ := i
  have hkey := key.shows_quoted
  have hcolon := hkey.append (.silent (x := ": ") (by decide))
  match value with
  | none => exact Displays.nil.around_some hkey rfl
  | some (.artifact a) =>
      exact (a.displays.around_some hkey rfl).congr (by simp [MapItem.leaves, MapValue.leaves])
  | some (.artifactType type) =>
      exact (Displays.nil.around_some (hcolon.append type.shows) rfl).congr
        (by simp [MapItem.leaves, MapValue.leaves])
  | some (.quoted id) =>
      exact (Displays.nil.around_some (hcolon.append id.shows_quoted) rfl).congr
        (by simp [MapItem.leaves, MapValue.leaves])

theorem ArgMap.displays (m : ArgMap P) : Displays m.events m.leaves := by
  have hitems := Displays.flatMap fun i (_ : i ∈ m.items) => i.displays
  exact (hitems.around_none rfl).congr (by simp [ArgMap.leaves])

theorem Expr.displays (e : Expr P) : Displays e.events e.leaves := by
  induction e with
  | not operand pos ih => exact (ih.around_none rfl).congr (by simp [Expr.leaves])
  | instanceOf subject type pos =>
      have hdetail := (subject.shows.append (.silent (x := " ") (by decide))).append type.shows
      exact (Displays.nil.around_some hdetail rfl).congr (by simp [Expr.leaves])
  | elementOf subject verdicts pos =>
      have hsubject := subject.shows.append (.silent (x := " \x7b") (by decide))
      have hdetail := (hsubject.append (Verdict.shows_row verdicts)).append
        (.silent (x := "\x7d") (by decide))
      exact (Displays.nil.around_some hdetail rfl).congr (by simp [Expr.leaves])
  | named id => exact Displays.nil.around_some id.shows rfl
  | parens inner pos ih => exact (ih.around_none rfl).congr (by simp [Expr.leaves])
  | binary left op opPos right ihl ihr =>
      refine ((ihl.append ihr).around_some (.word .binOp op.text opPos) rfl).congr ?_
      simp [Expr.leaves, or_left_comm]

theorem Actor.displays (a : Actor P) : Displays a.events (a.leaves .plain) := by
  induction a with
  | atomic type source pos =>
      exact (Reference.displays rfl).congr (by simp [Actor.leaves, Reference.factoryLeaves])
  | call name args =>
      exact (Displays.nil.around_some (shows_outlineSignature name args) rfl).congr
        (by simp [Actor.leaves])
  | joiner type merge output pos =>
      have hdetail := (type.shows.append (.silent (x := " -> ") (by decide))).append
        output.shows_quoted
      refine ((merge.displays.around_some hdetail rfl).around_none rfl).congr ?_
      simp [Actor.leaves, or_assoc, or_comm]
  | copy map pos | rename map pos | identityMap map pos =>
      exact ((map.displays.around_none rfl).around_none rfl).congr (by simp [Actor.leaves])
  | testSpecToSpec pos | specToTestSpec pos =>
      exact ((Displays.nil.around_none rfl).around_none rfl).congr (by simp [Actor.leaves])
  | identity target pos ih =>
      exact ((ih.around_none rfl).around_none rfl).congr (by simp [Actor.leaves])
  | sequence first second pos ih₁ ih₂ | parallel first second pos ih₁ ih₂ =>
      exact ((ih₁.append ih₂).around_none rfl).congr (by simp [Actor.leaves])
  | ifThenElse condition thenActor elseActor pos ih₁ ih₂ =>
      refine (((condition.displays.append ih₁).append ih₂).around_none rfl).congr ?_
      simp [Actor.leaves]
  | iterate watched body pos ih =>
      exact (ih.around_some watched.shows_quoted rfl).congr (by simp [Actor.leaves])
  | named id => exact Displays.nil.around_some id.shows rfl
  | parens inner pos ih => exact (ih.around_none rfl).congr (by simp [Actor.leaves])

theorem Assignable.displays (v : Assignable P) : Displays v.events (v.leaves .plain) := by
  cases v with
  | expression e => exact e.displays
  | artifact a => exact a.displays
  | argMap m => exact m.displays
  | actor a => exact a.displays.congr (by simp [Assignable.leaves])
  | literal l => exact l.displays

theorem Statement.displays (st : Statement P) : Displays st.events (st.leaves .plain) := by
  cases st with
  | assign target value =>
      have hform : '\n' ∉ value.outlineForm.toList := by
        cases value <;> simp [Assignable.outlineForm]
      have hdetail := ((target.shows.append (.silent (x := " (") (by decide))).append
        (.silent hform)).append (.silent (x := ")") (by decide))
      exact (value.displays.around_some hdetail rfl).congr (by simp [Statement.leaves])
  | print actor pos => exact (actor.displays.around_none rfl).congr (by simp [Statement.leaves])
  | execute actor inputs pos =>
      cases inputs with
      | named id =>
          have hdetail := (Shows.silent (x := "inputs=") (by decide)).append id.shows
          refine ((actor.displays.append .nil).around_some hdetail rfl).congr ?_
          simp [Statement.leaves, Inputs.leaves, or_comm]
      | argMap m =>
          exact ((actor.displays.append m.displays).around_none rfl).congr
            (by simp [Statement.leaves, Inputs.leaves])
  | ret value pos =>
      exact (Displays.nil.around_some value.shows rfl).congr (by simp [Statement.leaves])

theorem Block.displays (closer : TokenKind) (b : Block P) :
    Displays b.events (b.leaves .plain closer) := by
  have hstatements := Displays.flatMap fun st (_ : st ∈ b.statements) => st.displays
  exact (hstatements.around_none rfl).congr (by simp [Block.leaves])

theorem Function.displays (f : Function P) : Displays f.events (f.leaves .plain) := by
  refine ((f.body.displays .rbrace).around_some (shows_outlineSignature f.name f.params) rfl).congr
    ?_
  simp [Function.leaves]

/-- The outline keeps the line feeds of all texts in the tree, and adds none inside of its lines. -/
theorem Program.displays (p : Program P) : Displays p.events p.frontier := by
  have hfunctions := Displays.flatMap fun f (_ : f ∈ p.functions) => f.displays
  exact (hfunctions.append (p.body.displays .eof)).around_none rfl

/-! ## Programs that were read from a text -/

theorem Token.mem_unwrap {t : Token P} (hk : t.kind = .str) {opened : List Bool}
    {tokens : List (Token P)} (ht : t ∈ tokens) : t ∈ Token.unwrap opened tokens := by
  fun_induction Token.unwrap opened tokens with
  | case1 => cases ht
  | case3 opened u rest hu _ ih | case8 opened u rest hu _ ih =>
      rcases List.mem_cons.1 ht with rfl | ht
      · cases hu.symm.trans hk
      · exact ih ht
  | _ =>
      rcases List.mem_cons.1 ht with rfl | ht
      · exact List.mem_cons_self
      · exact List.mem_cons_of_mem _ (‹t ∈ _ → t ∈ _› ht)

theorem Leaf.exists_leaf_of_mem {ls : List (Leaf P)} {ts : List (Token P)}
    (h : List.Forall₂ Matches ls ts) {t : Token P} (ht : t ∈ ts) : ∃ l ∈ ls, l.Matches t := by
  induction h with
  | nil => cases ht
  | cons hmatch h ih =>
      rcases List.mem_cons.1 ht with rfl | ht
      · exact ⟨_, List.mem_cons_self, hmatch⟩
      · obtain ⟨l, hl, hmatch⟩ := ih ht
        exact ⟨l, List.mem_cons_of_mem _ hl, hmatch⟩

/-- The tokens of a text match what its program keeps of them. -/
theorem Program.matches_of_parse {limits : Limits} {source : String}
    {tokens : List (Token Position)} {p : Program Position} (ht : tokenize source = .ok tokens)
    (hp : Program.parse limits source = .ok p) :
    List.Forall₂ Matches p.frontier (Token.unwrapped tokens) := by
  obtain ⟨_, ht', hterm, hparse⟩ := Program.exists_tokens_of_parse hp
  obtain rfl := Except.ok.inj (ht.symm.trans ht')
  obtain ⟨ls, hspelling, hmatch⟩ := (Program.ofTokens_eq_ok hterm).1 hparse
  exact hspelling.strips.unwrapped hmatch

theorem Program.lexical_frontier {source : String} {tokens : List (Token Position)}
    {p : Program Position} (ht : tokenize source = .ok tokens)
    (hrow : List.Forall₂ Matches p.frontier (Token.unwrapped tokens)) :
    ∀ l ∈ p.frontier, l.Lexical := by
  refine Leaf.lexical_of_matches hrow fun t htoken hworded => ?_
  obtain ⟨body, pos, rfl, hbody⟩ := exists_body_of_tokenize ht
  rcases List.mem_append.1 ((Token.unwrap_sublist _ _).subset htoken) with htoken | htoken
  · exact hbody t htoken
  · rw [List.mem_singleton.1 htoken] at hworded
    cases hworded

/-- What a program keeps of its tokens has a line feed if and only if one of them has. -/
theorem Program.broken_frontier_iff {source : String} {tokens : List (Token Position)}
    {p : Program Position} (ht : tokenize source = .ok tokens)
    (hrow : List.Forall₂ Matches p.frontier (Token.unwrapped tokens)) :
    Broken p.frontier ↔ ∃ t ∈ tokens, t.HidesLine := by
  constructor
  · rintro ⟨l, hl, x, hx, hline⟩
    obtain ⟨t, htoken, hlt⟩ := exists_matches_of_mem hrow hl
    have hmem := (Token.unwrap_sublist _ _).subset htoken
    refine ⟨t, hmem, (Token.hidesLine_iff ht hmem).1 ?_⟩
    rw [hlt.text x hx]
    exact hline
  · rintro ⟨t, hmem, hhides⟩
    obtain ⟨l, hl, hlt⟩ := exists_leaf_of_mem hrow (Token.mem_unwrap hhides.1 hmem)
    have hkind : l.kind = .str := hlt.kind.symm.trans hhides.1
    -- A literal is among the texts that a tree keeps.
    have hworded := List.all_eq_true.1 p.worded_frontier l hl
    simp only [Leaf.worded, hkind, TokenKind.worded, Bool.not_true, Bool.false_or] at hworded
    obtain ⟨x, hx⟩ := Option.isSome_iff_exists.1 hworded
    refine ⟨l, hl, x, hx, ?_⟩
    rw [← hlt.text x hx]
    exact (Token.hidesLine_iff ht hmem).2 hhides

theorem Node.count_outlineLine (n : Node P) (depth : Nat) :
    (n.outlineLine depth).toList.count '\n' = 1 ↔ ∀ x ∈ n.outlineDetail, '\n' ∉ x.toList := by
  have hline : (n.outlineLine depth).toList = _ := Label.toList_line depth n.label
  have hname : n.kind.name.toList.count '\n' = 0 :=
    List.count_eq_zero.2 (line_of_isWord n.kind.isWord_name)
  have hblanks : (List.replicate (2 * depth) ' ').count '\n' = 0 :=
    List.count_eq_zero.2 (by simp)
  rw [hline, List.count_append, List.count_append, hblanks]
  simp only [Node.label, hname, Nat.zero_add]
  cases hdetail : n.outlineDetail with
  | none => simp [Label.ending]
  | some x => simp [Label.ending, List.count_eq_zero]

theorem Program.broken_frontier_iff_statements {p : Program P} (h : ∀ l ∈ p.frontier, l.Lexical) :
    Broken p.frontier ↔ ∃ st ∈ p.statements, Broken (st.leaves .plain) := by
  have hblock : ∀ (closer : TokenKind) (b : Block P), Broken (b.leaves .plain closer) ↔
      ∃ st ∈ b.statements, Broken (st.leaves .plain) := by
    intro closer b
    simp [Block.leaves]
  have hfunction : ∀ f ∈ p.functions, Broken (f.leaves .plain) ↔
      ∃ st ∈ f.body.statements, Broken (st.leaves .plain) := by
    intro f hf
    have hleaves : ∀ l ∈ f.leaves .plain, l.Lexical := fun l hl =>
      h l (List.mem_append_left _ (List.mem_flatMap.2 ⟨f, hf, hl⟩))
    simp only [Function.leaves, Script.plain_call, List.forall_mem_append,
      List.forall_mem_cons] at hleaves
    have hhead : ¬ Broken (f.name.leaf :: Ident.row f.params) := fun hbroken =>
      line_outlineSignature hleaves.2.1.1 hleaves.2.2.1
        ((shows_outlineSignature f.name f.params).2 hbroken)
    rw [← hblock .rbrace]
    simp only [broken_cons, not_or] at hhead
    simp [Function.leaves, hhead]
  simp only [Program.frontier, Program.leaves, Program.statements, broken_append, broken_flatMap,
    hblock, List.mem_append, List.mem_flatMap, or_and_right, exists_or]
  refine or_congr ?_ Iff.rfl
  constructor
  · rintro ⟨f, hf, hbroken⟩
    obtain ⟨st, hst, hbroken⟩ := (hfunction f hf).1 hbroken
    exact ⟨st, ⟨f, hf, hst⟩, hbroken⟩
  · rintro ⟨st, ⟨f, hf, hst⟩, hbroken⟩
    exact ⟨f, hf, (hfunction f hf).2 ⟨st, hst, hbroken⟩⟩

theorem Program.mem_nodes {p : Program P} {n : Node P} : n ∈ p.nodes ↔ .enter n ∈ p.events := by
  rw [Program.nodes, List.mem_filterMap]
  constructor
  · rintro ⟨event, hevent, hn⟩
    cases event with
    | enter m =>
        obtain rfl := Option.some.inj hn
        exact hevent
    | exit m => cases hn
  · intro h
    exact ⟨_, h, rfl⟩

/-- The scanner lets a line feed into a token only behind a backslash in a string. A program shows
every such line feed and no other one, both in its outline and where its statements are printed. -/
theorem tokenize_line_breaks {source : String} {tokens : List (Token Position)}
    (h : tokenize source = .ok tokens) :
    (∀ t ∈ tokens, t.kind = .str →
      (t.text.toList ≠ [] ∧ ∀ c ∈ t.text.toList, c.isDigit = true) ∨
        ∃ inner, t.text.toList = '"' :: (inner ++ ['"']) ∧ Item.plain '\n' ∉ items inner) ∧
    (∀ t ∈ tokens, '\n' ∈ t.text.toList ↔ t.HidesLine) ∧
    ∀ limits p, Program.parse limits source = .ok p →
      ((∀ n ∈ p.nodes, ∀ depth, (n.outlineLine depth).toList.count '\n' = 1) ↔
        ∀ t ∈ tokens, ¬ t.HidesLine) ∧
      ((∀ st ∈ p.statements, '\n' ∉ st.render.toList) ↔ ∀ t ∈ tokens, ¬ t.HidesLine) := by
  refine ⟨fun t ht hkind => ?_, fun t ht => Token.hidesLine_iff h ht, fun limits p hp => ?_⟩
  · obtain ⟨body, pos, rfl, hbody⟩ := exists_body_of_tokenize h
    have htbody : t ∈ body := by
      rcases List.mem_append.1 ht with ht | ht
      · exact ht
      · rw [List.mem_singleton.1 ht] at hkind
        cases hkind
    have hlexeme := isLexeme_iff.1 (hbody t htbody)
    rw [hkind] at hlexeme
    rcases hlexeme.str_cases with hdigits | ⟨inner, hitems, htext⟩
    · exact .inl hdigits
    · exact .inr ⟨inner, htext, hitems.plain_line_not_mem⟩
  · have hrow := Program.matches_of_parse h hp
    have hnone : (∀ t ∈ tokens, ¬ t.HidesLine) ↔ ¬ Broken p.frontier := by
      rw [Program.broken_frontier_iff h hrow]
      simp
    rw [hnone]
    constructor
    · rw [← not_congr p.displays]
      simp [Node.count_outlineLine, Program.mem_nodes]
    · rw [Program.broken_frontier_iff_statements (Program.lexical_frontier h hrow)]
      simp only [not_exists, not_and]
      exact forall₂_congr fun st _ => not_congr st.shows

def Token.twoLineSample : List (Token Position) :=
  [⟨.ident, "x", ⟨1, 1, 0⟩⟩, ⟨.assign, "=", ⟨1, 3, 2⟩⟩, ⟨.str, "\"a\\\nb\"", ⟨1, 5, 4⟩⟩,
    ⟨.delimiter, ";", ⟨2, 3, 10⟩⟩, ⟨.eof, "", ⟨2, 4, 11⟩⟩]

def Program.twoLineSample : Program Position where
  functions := []
  body := ⟨[.assign ⟨"x", ⟨1, 1, 0⟩⟩ (.literal ⟨"\"a\\\nb\"", ⟨1, 5, 4⟩⟩)], ⟨1, 1, 0⟩⟩

theorem tokenize_line_breaks_twoLineSample :
    tokenize "x = \"a\\\nb\";" = .ok Token.twoLineSample ∧
      Program.parse {} "x = \"a\\\nb\";" = .ok Program.twoLineSample ∧
      (∃ t ∈ Token.twoLineSample, t.kind = .str ∧ '\n' ∈ t.text.toList ∧ t.HidesLine) ∧
      ¬ (∀ n ∈ Program.twoLineSample.nodes, ∀ depth,
        (n.outlineLine depth).toList.count '\n' = 1) ∧
      ¬ ∀ st ∈ Program.twoLineSample.statements, '\n' ∉ st.render.toList := by
  have htokens : tokenize "x = \"a\\\nb\";" = .ok Token.twoLineSample := by decide +kernel
  have hparse : Program.parse {} "x = \"a\\\nb\";" = .ok Program.twoLineSample := by decide +kernel
  obtain ⟨-, hline, hshown⟩ := tokenize_line_breaks htokens
  obtain ⟨houtline, hprinted⟩ := hshown {} _ hparse
  have hmem : (⟨.str, "\"a\\\nb\"", ⟨1, 5, 4⟩⟩ : Token Position) ∈ Token.twoLineSample := by
    simp [Token.twoLineSample]
  have hhides := (hline _ hmem).1 (by decide)
  refine ⟨htokens, hparse, ⟨_, hmem, rfl, by decide, hhides⟩, fun h => ?_, fun h => ?_⟩
  · exact houtline.1 h _ hmem hhides
  · exact hprinted.1 h _ hmem hhides

end ActorLang
