import ActorLang.Proofs.Printer.Text
import ActorLang.Proofs.Printer.WellFormed
import ActorLang.Tree.Relocate

/-!
# The row of a printed program

A printed tree is read as its printed row, in which the parentheses that the printer adds are nodes
and a fused name is one token with the parenthesis behind it. All that is asked of the tree is that
its names and literals are lexemes of their class.
-/

namespace ActorLang

open Leaf

namespace Lexer

theorem Emits.of_eq {x : String} {ls ms : List (Leaf Unit)} (h : Emits x ls) (he : ls = ms) :
    Emits x ms :=
  he ▸ h

theorem Seals.of_eq {x : String} {ls ms : List (Leaf Unit)} (h : Seals x ls) (he : ls = ms) :
    Seals x ms :=
  he ▸ h

/-! ## Punctuation -/

theorem seals_open {l : Leaf Unit} (hl : l.kind = .lparen) (hx : l.text = none) : Seals "(" [l] :=
  seals_punctuation (c := '(') rfl hl hx

theorem seals_close : Seals ")" [mark .rparen] :=
  seals_punctuation (c := ')') rfl rfl rfl

theorem seals_quote : Seals "'" [mark .quote] :=
  seals_punctuation (c := '\x27') rfl rfl rfl

theorem seals_brace {l : Leaf Unit} (hl : l.kind = .lbrace) (hx : l.text = none) :
    Seals "\x7b" [l] :=
  seals_punctuation (c := '\x7b') rfl hl hx

theorem seals_unbrace : Seals "\x7d" [mark .rbrace] :=
  seals_punctuation (c := '\x7d') rfl rfl rfl

theorem seals_blank : Seals " " [] :=
  seals_blanks rfl

theorem seals_line : Seals "\n" [] :=
  seals_blanks rfl

theorem seals_comma : Seals ", " [mark .comma] :=
  Seals.append (x := ",") (seals_punctuation (c := ',') rfl rfl rfl) seals_blank

theorem seals_colon : Seals ": " [mark .colon] :=
  Seals.append (x := ":") (seals_punctuation (c := ':') rfl rfl rfl) seals_blank

/-- A keyword and a blank. -/
theorem seals_spaced {x : String} {k : TokenKind} (h : IsLexeme k x) (pos : Unit) :
    Seals (x ++ " ") [key k pos] :=
  (IsLexeme.emits (l := key k pos) h (by simp [key])).seal seals_blank rfl

/-- A keyword and the parenthesis behind it. -/
theorem seals_command {x : String} {k : TokenKind}
    (h : isWord x.toList = true ∧ wordKind x = k ∧ k ≠ .typeName ∧ x ∉ fusedNames) (pos : Unit) :
    Seals (x ++ "(") [key k pos, mark .lparen] := by
  obtain ⟨hx, rfl, hk, hf⟩ := h
  exact seals_call hx hk hf (by simp)

theorem Emits.parens {x : String} {l : Leaf Unit} {ls : List (Leaf Unit)} (h : Emits x ls)
    (hl : l.kind = .lparen) (hx : l.text = none) :
    Seals (inParens x) (l :: (ls ++ [mark .rparen])) :=
  ((seals_open hl hx).emit h).seal seals_close rfl

theorem emits_commaList {α : Type} {f : α → String} {g : α → List (Leaf Unit)} {as : List α}
    (h : ∀ a ∈ as, Emits (f a) (g a)) : Emits (commaList (as.map f)) (commaRow g as) := by
  induction as with
  | nil => exact seals_empty.emits
  | cons a as ih =>
      obtain ⟨ha, has⟩ := List.forall_mem_cons.1 h
      cases as with
      | nil => simpa [commaList, commaRow] using ha
      | cons b as =>
          have hrow := (ha.seal seals_comma rfl).emit (ih has)
          have htext : commaList ((a :: b :: as).map f) =
              f a ++ ", " ++ commaList ((b :: as).map f) := by
            simp only [commaList, List.map_cons, String.intercalate_cons_cons]
          rw [htext]
          exact hrow.of_eq (by simp [commaRow])

end Lexer

open Lexer

/-! ## Names and argument maps -/

theorem Ident.emits {id : Ident Unit} (h : id.leaf.Lexical) : Emits id.name [id.leaf] :=
  emits_word rfl h

theorem TypeIdent.emits {type : TypeIdent Unit} (h : type.leaf.Lexical) :
    Emits type.name [type.leaf] :=
  emits_word rfl h

theorem Literal.emits {l : Literal Unit} (h : l.leaf.Lexical) : Emits l.raw [l.leaf] :=
  emits_word rfl h

theorem Ident.seals_quoted {id : Ident Unit} (h : ∀ l ∈ id.quotedLeaves, l.Lexical) :
    Seals id.quoted id.quotedLeaves := by
  have hid : id.leaf.Lexical := h _ (by simp [Ident.quotedLeaves])
  exact (seals_quote.emit (Ident.emits hid)).seal seals_quote rfl

theorem Ident.emits_row {ids : List (Ident Unit)} (h : ∀ l ∈ Ident.row ids, l.Lexical) :
    Emits (commaList (ids.map Ident.name)) (Ident.row ids) := by
  refine emits_commaList fun id hid => Ident.emits ?_
  exact (forall_mem_commaRow (lexical_mark _)).1 h id hid _ (by simp)

theorem Reference.emits {r : Reference Unit} (h : r.leaf.Lexical) : Emits r.render [r.leaf] := by
  cases r with
  | name id => exact Ident.emits h
  | literal lit => exact Literal.emits h

/-- A type and a source behind one of the two factories. -/
theorem Reference.seals_factory {x : String} {k : TokenKind} (hx : (x, k) ∈ punctuatedKeywords)
    {type : TypeIdent Unit} {source : Reference Unit} {pos : Unit}
    (h : ∀ l ∈ source.factoryLeaves k type pos, l.Lexical) :
    Seals (x ++ type.name ++ ", " ++ source.render ++ ")") (source.factoryLeaves k type pos) := by
  simp only [Reference.factoryLeaves, List.forall_mem_cons] at h
  have hopen : Seals x [key k pos] := seals_keyword hx rfl rfl
  exact (((hopen.emit (TypeIdent.emits h.2.1)).seal seals_comma rfl).emit
    (Reference.emits h.2.2.2.1)).seal seals_close rfl

theorem Artifact.emits {a : Artifact Unit} (h : ∀ l ∈ a.leaves, l.Lexical) :
    Emits a.render a.leaves := by
  cases a with
  | literal type source pos => exact (Reference.seals_factory (by decide) h).emits
  | named id => exact Ident.emits (h _ (by simp [Artifact.leaves]))

theorem MapItem.emits {i : MapItem Unit} (h : ∀ l ∈ i.leaves, l.Lexical) :
    Emits i.render i.leaves := by
  obtain ⟨key, value⟩ := i
  obtain ⟨hkey, hvalue⟩ := List.forall_mem_append.1 h
  have hquoted := Ident.seals_quoted hkey
  match value with
  | none => exact hquoted.emits.of_eq (by simp [MapItem.leaves])
  | some value =>
      have hv : Emits value.render value.leaves := by
        cases value with
        | artifact a => exact Artifact.emits (List.forall_mem_cons.1 hvalue).2
        | artifactType type =>
            exact TypeIdent.emits (hvalue _ (by simp [MapValue.leaves]))
        | quoted id => exact (Ident.seals_quoted (List.forall_mem_cons.1 hvalue).2).emits
      exact ((hquoted.append seals_colon).emit hv).of_eq (by simp [MapItem.leaves])

theorem ArgMap.seals {m : ArgMap Unit} (h : ∀ l ∈ m.leaves, l.Lexical) :
    Seals m.render m.leaves := by
  obtain ⟨-, h⟩ := List.forall_mem_cons.1 h
  obtain ⟨hitems, -⟩ := List.forall_mem_append.1 h
  have hrow : Emits (commaList (m.items.map MapItem.render)) (commaRow MapItem.leaves m.items) :=
    emits_commaList fun i hi =>
      MapItem.emits ((forall_mem_commaRow (lexical_mark _)).1 hitems i hi)
  exact ((seals_brace (l := key .lbrace m.pos) rfl rfl).emit hrow).seal seals_unbrace rfl

/-! ## Expressions and actors -/

theorem BinOp.isLexeme_text (op : BinOp) : IsLexeme .binOp op.text := by
  cases op <;> decide

theorem Verdict.isLexeme_text (v : Verdict) : IsLexeme .verdict v.text := by
  cases v <;> decide

theorem Verdict.emits (v : Verdict) : Emits v.text [v.leaf] :=
  v.isLexeme_text.emits (l := v.leaf) (by simp [Verdict.leaf])

/-- An operand that is printed in parentheses or not. -/
theorem Lexer.Emits.operand {x : String} {e : Expr Unit} (h : Emits x e.leaves) (b : Bool)
    (pos : Unit) :
    Emits (if b then inParens x else x) (if b then Expr.parens e pos else e).leaves := by
  cases b with
  | false => exact h
  | true => exact (h.parens (l := key .lparen pos) rfl rfl).emits

/-- The printed form of an expression has a pair of parentheses for each of its groups. -/
theorem Expr.emits {e : Expr Unit} (h : ∀ l ∈ e.leaves, l.Lexical) :
    Emits e.render e.grouped.leaves := by
  induction e with
  | not operand pos ih =>
      obtain ⟨-, h⟩ := List.forall_mem_cons.1 h
      have hnot : Seals "NOT " [key .not pos] := seals_spaced (x := "NOT") (by decide) pos
      exact hnot.emit (ih h)
  | instanceOf subject type pos =>
      simp only [Expr.leaves, List.forall_mem_cons] at h
      have hopen : Seals "INSTANCEOF(" [key .instanceOf pos, mark .lparen] :=
        seals_command (x := "INSTANCEOF") (by decide) pos
      exact ((((hopen.emit (Ident.emits h.2.2.1)).seal seals_comma rfl).emit
        (TypeIdent.emits h.2.2.2.2.1)).seal seals_close rfl).emits
  | elementOf subject verdicts pos =>
      simp only [Expr.leaves, List.forall_mem_cons] at h
      have hopen : Seals "ELEMENTOF(" [key .elementOf pos, mark .lparen] :=
        seals_command (x := "ELEMENTOF") (by decide) pos
      have hbrace : Seals ", \x7b" [mark .comma, mark .lbrace] :=
        seals_comma.append (seals_brace rfl rfl)
      have hclose : Seals "\x7d)" [mark .rbrace, mark .rparen] :=
        seals_unbrace.append seals_close
      have hverdicts : Emits (commaList (verdicts.map Verdict.text))
          (commaRow (fun v => [v.leaf]) verdicts) :=
        emits_commaList fun v _ => v.emits
      exact ((((hopen.emit (Ident.emits h.2.2.1)).seal hbrace rfl).emit hverdicts).seal
        hclose rfl).emits.of_eq (by simp [Expr.grouped, Expr.leaves])
  | named id => exact Ident.emits (h _ (by simp [Expr.leaves]))
  | parens inner pos ih =>
      obtain ⟨-, h⟩ := List.forall_mem_cons.1 h
      exact ((ih (List.forall_mem_append.1 h).1).parens (l := key .lparen pos) rfl rfl).emits
  | binary left op opPos right ihl ihr =>
      simp only [Expr.leaves, List.forall_mem_append, List.forall_mem_cons] at h
      have hleft := (ihl h.1).operand left.endsInNot left.pos
      have hright := (ihr h.2.2).operand right.isBinary right.pos
      have hop : Emits op.text [word .binOp op.text opPos] := emits_word rfl h.2.1
      exact ((((hleft.seal seals_blank rfl).emit hop).seal seals_blank rfl).emit hright).of_eq
        (by simp [Expr.grouped, Expr.leaves])

/-- A name and the parenthesis behind it. -/
theorem Ident.seals_callee {name : Ident Unit} (h : name.leaf.Lexical) :
    Seals (name.name ++ "(") (Script.printed.call name) := by
  by_cases hf : name.name ∈ fusedNames
  · simp only [fusedNames, List.mem_cons, List.not_mem_nil, or_false] at hf
    rcases hf with hname | hname
    · simp only [Script.printed, hname, if_true]
      exact seals_keyword (x := "print(") (k := .print) (by decide) rfl rfl
    · simp only [Script.printed, hname, if_true]
      exact seals_keyword (x := "execute(") (k := .execute) (by decide) rfl rfl
  · obtain ⟨hword, hkind⟩ := IsLexeme.word_of_ident (h rfl name.name rfl)
    rw [Script.printed_call hf]
    exact seals_call hword (by simp [hkind]) hf (by simp [hkind, Ident.leaf])

theorem append_inParens (x y : String) : x ++ inParens y = x ++ "(" ++ y ++ ")" := by
  rw [inParens, ← String.append_assoc, ← String.append_assoc]

/-- One argument in parentheses behind a keyword. -/
theorem Lexer.Seals.argument {x y : String} {ls ms : List (Leaf Unit)} (hx : Seals x ls)
    (hy : Emits y ms) : Emits (x ++ y ++ ")") (ls ++ (ms ++ [mark .rparen])) :=
  ((hx.emit hy).seal seals_close rfl).emits.of_eq (List.append_assoc ..)

/-- Two arguments in parentheses behind a keyword. -/
theorem Lexer.Seals.arguments {x y z : String} {ls ms ns : List (Leaf Unit)} (hx : Seals x ls)
    (hy : Emits y ms) (hz : Emits z ns) :
    Emits (x ++ y ++ ", " ++ z ++ ")") (ls ++ (ms ++ mark .comma :: (ns ++ [mark .rparen]))) :=
  (((hx.emit hy).seal seals_comma rfl).argument hz).of_eq (by simp)

/-- The fused names of calls are the reason why the row is the printed one. -/
theorem Actor.emits {a : Actor Unit} (h : ∀ l ∈ a.leaves .plain, l.Lexical) :
    Emits a.render ((a.mapExprs Expr.grouped).leaves .printed) := by
  induction a with
  | atomic type source pos => exact (Reference.seals_factory (by decide) h).emits
  | call name args =>
      simp only [Actor.leaves, Script.plain_call, List.forall_mem_append, List.forall_mem_cons] at h
      have htext : (Actor.call name args).render =
          name.name ++ "(" ++ commaList (args.map Ident.name) ++ ")" := append_inParens _ _
      rw [htext]
      exact (Ident.seals_callee h.1.1).argument (Ident.emits_row h.2.1)
  | joiner type merge output pos =>
      simp only [Actor.leaves, List.forall_mem_append, List.forall_mem_cons] at h
      have hopen : Seals "Joiner(" [key .joiner pos, mark .lparen] :=
        seals_command (x := "Joiner") (by decide) pos
      have htype := (hopen.emit (TypeIdent.emits h.2.2.1)).seal seals_comma rfl
      have hquoted := Ident.seals_quoted h.2.2.2.2.2.2.1
      exact (htype.arguments (ArgMap.seals h.2.2.2.2.1).emits hquoted.emits).of_eq
        (by simp [Actor.mapExprs, Actor.leaves])
  | copy map pos =>
      simp only [Actor.leaves, List.forall_mem_append, List.forall_mem_cons] at h
      have hopen : Seals "Copy(" [key .copy pos, mark .lparen] :=
        seals_command (x := "Copy") (by decide) pos
      exact hopen.argument (ArgMap.seals h.2.2.1).emits
  | rename map pos =>
      simp only [Actor.leaves, List.forall_mem_append, List.forall_mem_cons] at h
      have hopen : Seals "Rename(" [key .rename pos, mark .lparen] :=
        seals_command (x := "Rename") (by decide) pos
      exact hopen.argument (ArgMap.seals h.2.2.1).emits
  | testSpecToSpec pos =>
      exact (seals_keyword (x := "TestSpecToSpec()") (k := .testSpecToSpec)
        (by decide) rfl rfl).emits
  | specToTestSpec pos =>
      exact (seals_keyword (x := "SpecToTestSpec()") (k := .specToTestSpec)
        (by decide) rfl rfl).emits
  | identity target pos ih =>
      simp only [Actor.leaves, List.forall_mem_append, List.forall_mem_cons] at h
      have hopen : Seals "Identity(" [key .identity pos, mark .lparen] :=
        seals_command (x := "Identity") (by decide) pos
      exact hopen.argument (ih h.2.2.1)
  | identityMap target pos =>
      simp only [Actor.leaves, List.forall_mem_append, List.forall_mem_cons] at h
      have hopen : Seals "Identity(" [key .identity pos, mark .lparen] :=
        seals_command (x := "Identity") (by decide) pos
      exact hopen.argument (ArgMap.seals h.2.2.1).emits
  | sequence first second pos ih₁ ih₂ =>
      simp only [Actor.leaves, List.forall_mem_append, List.forall_mem_cons] at h
      have hopen : Seals "SEQUENCE(" [key .sequence pos, mark .lparen] :=
        seals_command (x := "SEQUENCE") (by decide) pos
      exact hopen.arguments (ih₁ h.2.2.1) (ih₂ h.2.2.2.2.1)
  | ifThenElse condition thenActor elseActor pos ih₁ ih₂ =>
      simp only [Actor.leaves, List.forall_mem_append, List.forall_mem_cons] at h
      have hopen : Seals "ITE(" [key .ite pos, mark .lparen] :=
        seals_command (x := "ITE") (by decide) pos
      have hcondition := (hopen.emit (Expr.emits h.2.2.1)).seal seals_comma rfl
      exact (hcondition.arguments (ih₁ h.2.2.2.2.1) (ih₂ h.2.2.2.2.2.2.1)).of_eq
        (by simp [Actor.mapExprs, Actor.leaves])
  | iterate watched body pos ih =>
      simp only [Actor.leaves, List.forall_mem_append, List.forall_mem_cons] at h
      have hopen : Seals "REPEAT(" [key .iterate pos, mark .lparen] :=
        seals_command (x := "REPEAT") (by decide) pos
      have hquoted := Ident.seals_quoted h.2.2.1
      exact hopen.arguments hquoted.emits (ih h.2.2.2.2.1)
  | parallel first second pos ih₁ ih₂ =>
      simp only [Actor.leaves, List.forall_mem_append, List.forall_mem_cons] at h
      have hopen : Seals "PARALLEL(" [key .parallel pos, mark .lparen] :=
        seals_command (x := "PARALLEL") (by decide) pos
      exact hopen.arguments (ih₁ h.2.2.1) (ih₂ h.2.2.2.2.1)
  | named id => exact Ident.emits (h _ (by simp [Actor.leaves]))
  | parens inner pos ih =>
      simp only [Actor.leaves, List.forall_mem_append, List.forall_mem_cons] at h
      exact ((ih h.2.1).parens (l := key .lparen pos) rfl rfl).emits

/-! ## Statements and programs -/

theorem Actor.isName_mapExprs (f : Expr Unit → Expr Unit) (a : Actor Unit) :
    (a.mapExprs f).isName = a.isName := by
  induction a with
  | parens inner pos ih => exact ih
  | _ => rfl

theorem Assignable.emits {v : Assignable Unit} (h : ∀ l ∈ v.leaves .plain, l.Lexical) :
    Emits v.render ((v.mapExprs Expr.grouped).leaves .printed) := by
  cases v with
  | expression e => exact Expr.emits h
  | artifact a => exact Artifact.emits h
  | argMap m => exact (ArgMap.seals h).emits
  | literal l => exact Literal.emits (h _ (by simp [Assignable.leaves]))
  | actor a =>
      have hactor : Emits a.render ((a.mapExprs Expr.grouped).leaves .printed) :=
        Actor.emits (by simpa [Assignable.leaves] using h)
      have hopen : Seals "ActorFactory.create(" [mark .actorFactory] :=
        seals_keyword (k := .actorFactory) (by decide) rfl rfl
      simp only [Assignable.render, Assignable.mapExprs, Assignable.leaves, Actor.isName_mapExprs]
      split
      · exact hopen.argument hactor
      · exact hactor

theorem Inputs.emits {i : Inputs Unit} (h : ∀ l ∈ i.leaves, l.Lexical) :
    Emits i.render i.leaves := by
  cases i with
  | named id => exact Ident.emits (h _ (by simp [Inputs.leaves]))
  | argMap m => exact (ArgMap.seals h).emits

theorem Statement.emits {st : Statement Unit} (h : ∀ l ∈ st.leaves .plain, l.Lexical) :
    Emits st.render ((st.mapExprs Expr.grouped).leaves .printed) := by
  cases st with
  | assign target value =>
      simp only [Statement.leaves, List.forall_mem_cons] at h
      have hsign : Seals " = " [mark .assign] :=
        Seals.append (x := " ") seals_blank (((IsLexeme.emits (l := mark .assign) (x := "=")
          (by decide) (by simp [mark])).seal seals_blank rfl))
      exact ((Ident.emits h.1).seal hsign rfl).emit (Assignable.emits h.2.2)
  | print actor pos =>
      simp only [Statement.leaves, List.forall_mem_append, List.forall_mem_cons] at h
      have hopen : Seals "print(" [key .print pos] :=
        seals_keyword (k := .print) (by decide) rfl rfl
      exact hopen.argument (Actor.emits h.2.1)
  | execute actor inputs pos =>
      simp only [Statement.leaves, List.forall_mem_append, List.forall_mem_cons] at h
      have hopen : Seals "execute(" [key .execute pos] :=
        seals_keyword (k := .execute) (by decide) rfl rfl
      exact hopen.arguments (Actor.emits h.2.1) (Inputs.emits h.2.2.2.1)
  | ret value pos =>
      simp only [Statement.leaves, List.forall_mem_cons] at h
      have hret : Seals "return " [key .ret pos] := seals_spaced (x := "return") (by decide) pos
      exact hret.emit (Ident.emits h.2.1)

/-- Lines are read one after the other. -/
theorem Lexer.seals_join {α : Type} {f : α → String} {g : α → List (Leaf Unit)} {as : List α}
    (h : ∀ a ∈ as, Seals (f a) (g a)) : Seals (String.join (as.map f)) (as.flatMap g) := by
  induction as with
  | nil => exact seals_empty
  | cons a as ih =>
      obtain ⟨ha, has⟩ := List.forall_mem_cons.1 h
      rw [List.map_cons, String.join_cons, List.flatMap_cons]
      exact ha.append (ih has)

/-- Without places, a row is not changed by its place. -/
theorem Lexer.lexes_pin {text : List Char} {ls : List (Leaf Unit)} {pos : Unit} :
    Lexes text (pin pos ls) ↔ Lexes text ls := by
  simp only [Lexes, matches_pin_unit]

theorem Lexer.Seals.pin {x : String} {ls : List (Leaf Unit)} (h : Seals x ls) (hls : ls ≠ [])
    (pos : Unit) : Seals x (pin pos ls) := by
  intro rest ms hrest
  obtain ⟨l, ls, rfl⟩ := List.exists_cons_of_ne_nil hls
  exact lexes_pin.2 (h rest ms hrest)

theorem Block.seals_lines {b : Block Unit} {closer : TokenKind}
    (h : ∀ l ∈ b.leaves .plain closer, l.Lexical) (margin : Nat) :
    Seals (b.render margin) ((b.mapExprs Expr.grouped).statements.flatMap fun st =>
      st.leaves .printed ++ [mark .delimiter]) := by
  have hlines : ∀ st ∈ b.statements, ∀ l ∈ st.leaves .plain, l.Lexical := by
    have hrow := (List.forall_mem_append.1 (lexical_of_pin h)).1
    exact fun st hst => (List.forall_mem_append.1 (List.forall_mem_flatMap.1 hrow st hst)).1
  have hend : Seals ";\n" [mark .delimiter] :=
    Seals.append (x := ";") (seals_punctuation (c := ';') rfl rfl rfl) seals_line
  have hmargin : Seals (String.ofList (List.replicate margin ' ')) [] :=
    seals_blanks (by simp [isBlank])
  rw [Block.mapExprs, List.flatMap_map]
  exact seals_join fun st hst => (hmargin.emit (Statement.emits (hlines st hst))).seal hend rfl

theorem Function.seals {f : Function Unit} (h : ∀ l ∈ f.leaves .plain, l.Lexical)
    (layout : Layout) :
    Seals (f.render layout ++ "\n") ((f.mapExprs Expr.grouped).leaves .printed) := by
  simp only [Function.leaves, Script.plain_call, List.forall_mem_cons, List.forall_mem_append] at h
  have hfun : Seals "fun " [key .func f.pos] := seals_spaced (x := "fun") (by decide) f.pos
  have hname := hfun.append (Ident.seals_callee h.2.1.1)
  rw [← String.append_assoc] at hname
  have hhead := hname.argument (Ident.emits_row h.2.2.1)
  rw [← append_inParens] at hhead
  have hopen : Seals " \x7b\n" [mark .lbrace] :=
    (seals_blank.append (seals_brace (l := mark .lbrace) rfl rfl)).append seals_line
  have hclose : Seals "\x7d\n" [mark .rbrace] := seals_unbrace.append seals_line
  have hbody := (Block.seals_lines h.2.2.2.2.2 layout.indent).append hclose
  have hall := (hhead.seal hopen rfl).append (hbody.pin (by simp) f.body.pos)
  rw [← String.append_assoc] at hall
  refine (hall.append seals_line).of_eq ?_
  simp [Function.leaves, Function.mapExprs, Block.leaves, Block.mapExprs]

/-- A printed program is read as its printed row. -/
theorem Program.lexes_render {p : Program Unit} (h : ∀ l ∈ p.frontier, l.Lexical)
    (layout : Layout) :
    Lexes (p.render layout).toList (p.grouped.leaves .printed) := by
  simp only [Program.frontier, Program.leaves, List.forall_mem_append, List.forall_mem_flatMap] at h
  have hfunctions : Seals (String.join (p.functions.map fun f => f.render layout ++ "\n"))
      (p.grouped.functions.flatMap (Function.leaves .printed)) := by
    rw [grouped, Program.mapExprs, List.flatMap_map]
    exact seals_join fun f hf => Function.seals (h.1 f hf) layout
  have hbody := Block.seals_lines h.2 0 [] _ lexes_nil
  rw [List.append_nil] at hbody
  have hpinned : Lexes (p.body.render 0).toList (p.grouped.body.leaves .printed .eof) :=
    lexes_pin.2 hbody
  have hall := hfunctions _ _ hpinned
  rwa [← String.toList_append] at hall

end ActorLang
