import ActorLang.Proofs.Lexer.Lines
import ActorLang.Proofs.Parser.Program
import ActorLang.Proofs.Printer.Text
import ActorLang.Proofs.Relocate

/-!
# Actors and expressions inside a program

An actor is read alone exactly if it is read as the operand of a `print` statement, and an
expression exactly if it is read as an assigned value. This holds of every text. A comment in it
ends before the rest of the statement, which stands on a line of its own, and that rest closes no
string or comment that the text leaves open.
-/

namespace ActorLang

variable {α β : Type} {limits : Limits}

/-- A text that is parsed to a tree of some shape, in terms of its tokens without places. -/
theorem Parser.exists_parse_iff {p : Parser Position α} {q : Parser Unit β} {shape : α → β}
    (h : Relocates (fun _ => ()) shape p q) (source : String) (b : β) :
    (∃ a, (tokenize source >>= p.run) = .ok a ∧ shape a = b) ↔
      ∃ ts, Lexer.shapes source.toList = some ts ∧ q.run ts = .ok b := by
  have hshapes : Lexer.shapes source.toList =
      (tokenize source).toOption.map (List.map Token.shape) := rfl
  rw [hshapes]
  cases htokens : tokenize source with
  | error e =>
      apply iff_of_false
      · rintro ⟨a, ha, -⟩
        cases ha
      · rintro ⟨ts, hts, -⟩
        cases hts
  | ok tokens =>
      have hne : tokens ≠ [] := by
        obtain ⟨body, last, rfl, -⟩ := Lexer.scan_spec htokens
        simp
      have hrun : q.run (tokens.map Token.shape) = _ := h.run hne
      have hparse : ((Except.ok tokens : Except (ParseError Position) _) >>= p.run) =
          p.run tokens := rfl
      rw [hparse]
      constructor
      · rintro ⟨a, ha, rfl⟩
        refine ⟨_, rfl, ?_⟩
        rw [hrun, ha]
        rfl
      · rintro ⟨ts, hts, hb⟩
        obtain rfl : tokens.map Token.shape = ts := Option.some.inj hts
        rw [hrun] at hb
        cases ha : p.run tokens with
        | error e =>
            rw [ha] at hb
            cases hb
        | ok a =>
            rw [ha] at hb
            exact ⟨a, rfl, Except.ok.inj hb⟩

/-- The tokens of a program that prints the actor with the given tokens. -/
def Token.printing (body : List (Token Unit)) : List (Token Unit) :=
  ⟨.print, "print(", ()⟩ :: (body ++ [⟨.rparen, ")", ()⟩] ++ [⟨.delimiter, ";", ()⟩]) ++
    [⟨.eof, "", ()⟩]

def Token.assigning (body : List (Token Unit)) : List (Token Unit) :=
  ⟨.ident, "x", ()⟩ :: ⟨.assign, "=", ()⟩ :: (body ++ [⟨.delimiter, ";", ()⟩]) ++ [⟨.eof, "", ()⟩]

namespace Lexer

theorem exists_body_of_shapes {text : List Char} {ts : List (Token Unit)}
    (h : shapes text = some ts) :
    ∃ body last, ts = body ++ [last] ∧ last.kind = .eof ∧ ∀ t ∈ body, t.kind ≠ .eof := by
  obtain ⟨tokens, htokens, rfl⟩ := Option.map_eq_some_iff.1 h
  cases hscan : scan 0 .start text with
  | error e =>
      rw [hscan] at htokens
      cases htokens
  | ok tokens' =>
      obtain rfl : tokens' = tokens := by simpa [hscan, Except.toOption] using htokens
      obtain ⟨body, last, rfl, hlast, hbody⟩ := scan_spec hscan
      refine ⟨body.map Token.shape, last.shape, by simp, hlast, ?_⟩
      intro t ht
      obtain ⟨u, hu, rfl⟩ := List.mem_map.1 ht
      exact (hbody u hu).1

theorem shapes_print (text : List Char) :
    shapes ("print(".toList ++ (text ++ '\n' :: ");".toList)) =
      (shapes text).map fun ts => Token.printing ts.dropLast := by
  have hback : shapes ");".toList =
      some [⟨.rparen, ")", ()⟩, ⟨.delimiter, ";", ()⟩, ⟨.eof, "", ()⟩] := rfl
  have hprint : ("print(", TokenKind.print) ∈ punctuatedKeywords := by decide
  rw [(reads_keyword hprint _).shapes_eq, shapes_line text (by decide) (by decide), hback]
  cases shapes text <;> simp [Token.printing]

theorem shapes_assign (text : List Char) :
    shapes ("x = ".toList ++ (text ++ '\n' :: ";".toList)) =
      (shapes text).map fun ts => Token.assigning ts.dropLast := by
  have hback : shapes ";".toList = some [⟨.delimiter, ";", ()⟩, ⟨.eof, "", ()⟩] := rfl
  have hx : ∀ more, Reads ('x' :: ' ' :: '=' :: ' ' :: more) (some .ident) ['x']
      (' ' :: '=' :: ' ' :: more) := fun more =>
    (isLexeme_iff.1 (show IsLexeme .ident "x" by decide)).reads (delimited_cons.2 (by decide))
  have hblank : ∀ more, Reads (' ' :: more) none [' '] more := fun more => .piece rfl rfl
  have hassign : ∀ more, Reads ('=' :: ' ' :: more) (some .assign) ['='] (' ' :: more) :=
    fun more => .piece rfl rfl
  change shapes ('x' :: ' ' :: '=' :: ' ' :: (text ++ '\n' :: ";".toList)) = _
  rw [(hx _).shapes_eq, (hblank _).shapes_eq, (hassign _).shapes_eq, (hblank _).shapes_eq,
    shapes_line text (by decide) (by decide), hback]
  cases shapes text <;> simp [Token.assigning]

end Lexer

section Tokens

open Leaf

variable {body : List (Token Unit)} {last : Token Unit} (hlast : last.kind = .eof)
  (hbody : ∀ t ∈ body, t.kind ≠ .eof)

include hlast hbody

/-- The tokens of a program that is one statement. -/
theorem Program.ofTokens_statement (st : Statement Unit) :
    Program.ofTokens limits (body ++ [last]) = .ok ⟨[], ⟨[st], ()⟩⟩ ↔
      ∃ row, st.Spelling limits row ∧ List.Forall₂ Matches (row ++ [mark .delimiter]) body := by
  rw [Program.ofTokens_eq_ok ⟨body, last, rfl, hlast, hbody⟩]
  constructor
  · rintro ⟨_, ⟨_, _, rfl, ⟨_, ⟨_, _, ⟨row, hrow, rfl⟩, rfl, rfl⟩, rfl⟩, rfl⟩, hm⟩
    rw [List.nil_append, matches_pin_unit, List.append_nil, matches_concat] at hm
    exact ⟨row, hrow, hm.1⟩
  · rintro ⟨row, hrow, hm⟩
    refine ⟨_, ⟨[], _, rfl, ⟨_, ⟨_, [], ⟨row, hrow, rfl⟩, rfl, rfl⟩, rfl⟩, rfl⟩, ?_⟩
    rw [List.nil_append, matches_pin_unit, List.append_nil, matches_concat]
    exact ⟨hm, matches_mark.2 hlast⟩

/-- An actor alone and behind `print(`. -/
theorem Actor.ofTokens_iff_print (a : Actor Unit) :
    Actor.ofTokens limits (body ++ [last]) = .ok a ↔
      Program.ofTokens limits (Token.printing body) = .ok ⟨[], ⟨[.print a ()], ()⟩⟩ := by
  rw [Actor.ofTokens_eq_ok ⟨body, last, rfl, hlast, hbody⟩, Token.printing,
    Program.ofTokens_statement rfl]
  · constructor
    · rintro ⟨ls, hls, hm⟩
      have hrow := (matches_concat.1 hm).1
      refine ⟨_, ⟨ls, hls, rfl⟩, .cons (matches_key.2 ⟨rfl, rfl⟩) ?_⟩
      exact matches_concat.2 ⟨matches_concat.2 ⟨hrow, matches_mark.2 rfl⟩, matches_mark.2 rfl⟩
    · rintro ⟨_, ⟨ls, hls, rfl⟩, hm⟩
      obtain ⟨-, hm⟩ := List.forall₂_cons.1 hm
      have hrow := (matches_concat.1 (matches_concat.1 hm).1).1
      exact ⟨ls, hls, matches_concat.2 ⟨hrow, matches_mark.2 hlast⟩⟩
  · rw [List.forall_mem_cons, List.forall_mem_append, List.forall_mem_append]
    exact ⟨by simp, ⟨hbody, by simp⟩, by simp⟩

/-- An expression alone and as an assigned value. -/
theorem Expr.ofTokens_iff_assign (hlook : 2 ≤ limits.lookahead) (e : Expr Unit) :
    Expr.ofTokens limits (body ++ [last]) = .ok e ↔
      Program.ofTokens limits (Token.assigning body) =
        .ok ⟨[], ⟨[.assign ⟨"x", ()⟩ (.expression e)], ()⟩⟩ := by
  have hfar : limits.lookahead ≤ 1 → lead e.leaves ≠ some .ident := fun hle => by omega
  rw [Expr.ofTokens_eq_ok ⟨body, last, rfl, hlast, hbody⟩, Token.assigning,
    Program.ofTokens_statement rfl]
  · constructor
    · rintro ⟨hnormal, hdepth, hm⟩
      have hrow := (matches_concat.1 hm).1
      refine ⟨_, ⟨e.leaves, ⟨hfar, hnormal, hdepth, rfl⟩, rfl⟩, ?_⟩
      refine .cons (matches_word.2 rfl) (.cons (matches_mark.2 rfl) ?_)
      exact matches_concat.2 ⟨hrow, matches_mark.2 rfl⟩
    · rintro ⟨_, ⟨_, ⟨-, hnormal, hdepth, rfl⟩, rfl⟩, hm⟩
      obtain ⟨-, hm⟩ := List.forall₂_cons.1 hm
      obtain ⟨-, hm⟩ := List.forall₂_cons.1 hm
      have hrow := (matches_concat.1 hm).1
      exact ⟨hnormal, hdepth, matches_concat.2 ⟨hrow, matches_mark.2 hlast⟩⟩
  · rw [List.forall_mem_cons, List.forall_mem_cons, List.forall_mem_append]
    exact ⟨by simp, by simp, hbody, by simp⟩

end Tokens

/-- What is read from the tokens of a text can be read from those of a text around it, if both are
read from the same tokens. -/
theorem exists_run_iff_embedded {p : Parser Unit α} {q : Parser Unit β} {a : α} {b : β}
    {text text' : List Char} {wrap : List (Token Unit) → List (Token Unit)}
    (hwrap : Lexer.shapes text' = (Lexer.shapes text).map fun ts => wrap ts.dropLast)
    (hiff : ∀ {body : List (Token Unit)} {last : Token Unit}, last.kind = .eof →
      (∀ t ∈ body, t.kind ≠ .eof) → (p.run (body ++ [last]) = .ok a ↔ q.run (wrap body) = .ok b)) :
    (∃ ts, Lexer.shapes text = some ts ∧ p.run ts = .ok a) ↔
      ∃ ts, Lexer.shapes text' = some ts ∧ q.run ts = .ok b := by
  rw [hwrap]
  cases h : Lexer.shapes text with
  | none => simp
  | some ts =>
      obtain ⟨body, last, rfl, hlast, hbody⟩ := Lexer.exists_body_of_shapes h
      simp [hiff hlast hbody]

/-- An actor or an expression that spans a text is what the program parser reads where the text
stands inside a statement, and nothing else is read there as one. -/
theorem parse_iff_embedded (hlook : 2 ≤ limits.lookahead) (source : String) :
    (∀ a : Actor Unit, (∃ a₀, Actor.parse limits source = .ok a₀ ∧ a₀.shape = a) ↔
      ∃ p, Program.parse limits ("print(" ++ source ++ "\n" ++ ");") = .ok p ∧
        p.shape = ⟨[], ⟨[.print a ()], ()⟩⟩) ∧
    (∀ e : Expr Unit, (∃ e₀, Expr.parse limits source = .ok e₀ ∧ e₀.shape = e) ↔
      ∃ p, Program.parse limits ("x = " ++ source ++ "\n" ++ ";") = .ok p ∧
        p.shape = ⟨[], ⟨[.assign ⟨"x", ()⟩ (.expression e)], ()⟩⟩) := by
  constructor
  · intro a
    have halone := Parser.exists_parse_iff (.wholeActor limits) source a
    have hembedded := Parser.exists_parse_iff (.program limits) ("print(" ++ source ++ "\n" ++ ");")
      ⟨[], ⟨[.print a ()], ()⟩⟩
    have htext : ("print(" ++ source ++ "\n" ++ ");").toList =
        "print(".toList ++ (source.toList ++ '\n' :: ");".toList) := by simp
    rw [htext] at hembedded
    refine halone.trans (Iff.trans ?_ hembedded.symm)
    apply exists_run_iff_embedded (Lexer.shapes_print source.toList)
    exact fun hlast hbody => a.ofTokens_iff_print hlast hbody
  · intro e
    have halone := Parser.exists_parse_iff (.wholeExpr limits) source e
    have hembedded := Parser.exists_parse_iff (.program limits) ("x = " ++ source ++ "\n" ++ ";")
      ⟨[], ⟨[.assign ⟨"x", ()⟩ (.expression e)], ()⟩⟩
    have htext : ("x = " ++ source ++ "\n" ++ ";").toList =
        "x = ".toList ++ (source.toList ++ '\n' :: ";".toList) := by simp
    rw [htext] at hembedded
    refine halone.trans (Iff.trans ?_ hembedded.symm)
    apply exists_run_iff_embedded (Lexer.shapes_assign source.toList)
    exact fun hlast hbody => e.ofTokens_iff_assign hlast hbody hlook

/-- A name in parentheses, with a comment that the rest of the statement would get into if it stood
on the same line. With room for one level more it is an actor and an expression. -/
theorem parse_iff_embedded_commentSample :
    2 ≤ (Limits.mk 2 2).lookahead ∧
    (∃ p, Program.parse ⟨2, 2⟩ ("print(" ++ "(a) // b" ++ "\n" ++ ");") = .ok p ∧
      p.shape = ⟨[], ⟨[.print (.parens (.named ⟨"a", ()⟩) ()) ()], ()⟩⟩) ∧
    ∃ p, Program.parse ⟨2, 2⟩ ("x = " ++ "(a) // b" ++ "\n" ++ ";") = .ok p ∧
      p.shape = ⟨[], ⟨[.assign ⟨"x", ()⟩ (.expression (.parens (.named ⟨"a", ()⟩) ()))], ()⟩⟩ := by
  have hlook : 2 ≤ (Limits.mk 2 2).lookahead := Nat.le_refl 2
  have hactor : Actor.parse ⟨2, 2⟩ "(a) // b" =
      .ok (.parens (.named ⟨"a", ⟨1, 2, 1⟩⟩) ⟨1, 1, 0⟩) := by decide +kernel
  have hexpr : Expr.parse ⟨2, 2⟩ "(a) // b" =
      .ok (.parens (.named ⟨"a", ⟨1, 2, 1⟩⟩) ⟨1, 1, 0⟩) := by decide +kernel
  obtain ⟨hprint, hassign⟩ := parse_iff_embedded hlook "(a) // b"
  exact ⟨hlook, (hprint _).1 ⟨_, hactor, rfl⟩, (hassign _).1 ⟨_, hexpr, rfl⟩⟩

end ActorLang
