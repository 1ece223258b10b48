import ActorLang.Proofs.Lexer.Split
import ActorLang.Proofs.Relocate

/-!
# Layout between tokens

A text can be laid out anew: the lexemes stay in their order, and what stands between them is
replaced by other blanks and comments. As long as some blank or comment is left between two
lexemes, none of them grows or merges with the next one. The tokens are the same apart from their
places, and so is everything that is parsed from them.
-/

namespace ActorLang

variable {P α β : Type}

namespace Lexer

/-- Blanks, block comments, and line comments with the line feed that ends them. Such a stretch
means nothing, whatever follows it. -/
inductive Filler : List Char → Prop
  | nil : Filler []
  | blank {c : Char} {gap : List Char} (hc : isBlank c = true) (h : Filler gap) :
      Filler (c :: gap)
  | line {body gap : List Char} (hbody : '\n' ∉ body) (h : Filler gap) :
      Filler ('/' :: '/' :: body ++ '\n' :: gap)
  | block {body gap : List Char} (hbody : ¬ ['*', '/'] <:+: body ++ ['*']) (h : Filler gap) :
      Filler ('/' :: '*' :: (body ++ ['*', '/']) ++ gap)

/-- A text made of the given lexemes. What follows a lexeme is empty only behind the last one. -/
inductive Relaid : List String → List Char → Prop
  | nil : Relaid [] []
  | cons {x : String} {xs : List String} {gap rest : List Char} (hgap : Filler gap)
      (hne : xs ≠ [] → gap ≠ []) (h : Relaid xs rest) :
      Relaid (x :: xs) (x.toList ++ (gap ++ rest))

theorem Filler.gap {gap : List Char} (h : Filler gap) (rest : List Char) : Gap gap rest := by
  induction h with
  | nil => exact .nil rest
  | blank hc h ih => exact .cons (.blank hc _) ih
  | line hbody h ih =>
      have hfeed : Gap ('\n' :: _) rest := .cons (.blank (by decide) _) ih
      exact .cons (.line hbody (by simp)) hfeed
  | block hbody h ih => exact .cons (.block hbody _) ih

theorem isDelimiter_of_isBlank {c : Char} (h : isBlank c = true) : isDelimiter c = true := by
  have hword : ¬ isWordChar c = true := by
    rw [isWordChar_iff, isWordStart_iff, isDigit_iff]
    simp [isBlank] at h
    omega
  have hother : c ≠ '(' ∧ c ≠ '.' ∧ c ≠ '=' := by
    refine ⟨?_, ?_, ?_⟩
    all_goals
      rintro rfl
      simp [isBlank] at h
  simp [isDelimiter, hword, hother]

/-- No lexeme goes on into what may stand between two of them. -/
theorem Filler.delimited {gap : List Char} (h : Filler gap) (hne : gap ≠ []) (rest : List Char) :
    Delimited (gap ++ rest) := by
  cases h with
  | nil => exact absurd rfl hne
  | blank hc h => exact delimited_cons.2 (isDelimiter_of_isBlank hc)
  | line | block => exact delimited_cons.2 (by decide)

/-- Lexemes that are kept apart are scanned as they were. -/
theorem Relaid.scan {body : List (Token P)} {text : List Char}
    (h : Relaid (body.map Token.text) text) (hbody : ∀ t ∈ body, IsLexeme t.kind t.text)
    (before : List Char) :
    ∃ tokens, scan 0 (Position.behind before).wrapped text = .ok tokens ∧
      tokens.map Token.shape = body.map Token.shape ++ [⟨.eof, "", ()⟩] := by
  induction body generalizing text before with
  | nil =>
      cases h
      exact ⟨_, rfl, rfl⟩
  | cons t body ih =>
      obtain ⟨ht, hbody⟩ := List.forall_mem_cons.1 hbody
      rw [List.map_cons] at h
      cases h with
      | @cons _ _ gap rest hgap hne h =>
          have hdelimited : Delimited (gap ++ rest) := by
            by_cases hnil : gap = []
            · -- Nothing stands behind the last lexeme.
              obtain rfl : body = [] := by simpa using mt hne (not_not.2 hnil)
              cases h
              simp [hnil]
            · exact hgap.delimited hnil rest
          obtain ⟨tokens, htokens, hshape⟩ := ih h hbody (before ++ t.text.toList ++ gap)
          have hreads := (isLexeme_iff.1 ht).reads hdelimited
          rw [hreads.scan_eq, Position.advance_behind, (hgap.gap rest).scan_eq, htokens]
          refine ⟨_, rfl, ?_⟩
          rw [List.map_cons, List.map_cons, hshape, String.ofList_toList]
          rfl

theorem Splits.exists_body {before text : List Char} {tokens : List (Token Position)}
    (h : Splits before text tokens) :
    ∃ body pos, tokens = body ++ [⟨.eof, "", pos⟩] ∧ ∀ t ∈ body, IsLexeme t.kind t.text := by
  induction h with
  | ending => exact ⟨[], _, rfl, by simp⟩
  | @token before gap text rest k tokens hgap htext h ih =>
      obtain ⟨body, pos, rfl, hbody⟩ := ih
      refine ⟨_ :: body, pos, rfl, List.forall_mem_cons.2 ⟨?_, hbody⟩⟩
      rw [isLexeme_iff, String.toList_ofList]
      exact htext.lexeme

end Lexer

theorem exists_body_of_tokenize {source : String} {tokens : List (Token Position)}
    (h : tokenize source = .ok tokens) :
    ∃ body pos, tokens = body ++ [⟨.eof, "", pos⟩] ∧
      ∀ t ∈ body, Lexer.IsLexeme t.kind t.text := by
  obtain ⟨places, hplaces, rfl⟩ := tokenize_eq_ok_iff.1 h
  obtain ⟨body, pos, rfl, hbody⟩ := hplaces.exists_body
  refine ⟨body.map (Token.map .wrapped), pos.wrapped, by rw [List.map_append]; rfl, ?_⟩
  rw [List.forall_mem_map]
  exact hbody

def Relayout (texts : List String) (source : String) : Prop :=
  ∃ lead rest, Lexer.Filler lead ∧ Lexer.Relaid texts rest ∧ source.toList = lead ++ rest

def unplaced (shape : α → β) (r : Except (ParseError P) α) : Except (ParseError Unit) β :=
  (r.map shape).mapError (ParseError.map fun _ => ())

theorem exists_tokenize_of_relayout {source source' : String} {tokens : List (Token Position)}
    (h : tokenize source = .ok tokens)
    (hlayout : Relayout (tokens.dropLast.map Token.text) source') :
    ∃ tokens', tokenize source' = .ok tokens' ∧
      tokens'.map Token.shape = tokens.map Token.shape := by
  obtain ⟨lead, rest, hlead, hrest, hsource⟩ := hlayout
  obtain ⟨body, pos, rfl, hbody⟩ := exists_body_of_tokenize h
  rw [List.dropLast_concat] at hrest
  obtain ⟨tokens', htokens, hshape⟩ := hrest.scan hbody ([] ++ lead)
  refine ⟨tokens', ?_, ?_⟩
  · rw [tokenize, Position.start_eq, hsource, (hlead.gap rest).scan_eq, htokens]
  · rw [hshape, List.map_append]
    rfl

theorem Parser.unplaced_run {p : Parser Position α} {q : Parser Unit β} {shape : α → β}
    (h : Relocates (fun _ => ()) shape p q) {tokens tokens' : List (Token Position)}
    (hne : tokens ≠ []) (hshape : tokens'.map Token.shape = tokens.map Token.shape) :
    unplaced shape (p.run tokens') = unplaced shape (p.run tokens) := by
  have hne' : tokens' ≠ [] := by
    rintro rfl
    exact hne (List.map_eq_nil_iff.1 hshape.symm)
  have hrun : ∀ {ts : List (Token Position)}, ts ≠ [] →
      unplaced shape (p.run ts) = q.run (ts.map Token.shape) := fun hts => (h.run hts).symm
  rw [hrun hne', hrun hne, hshape]

/-- Blanks and comments between tokens do not matter. Of a text that is laid out anew, the tokens
and what is parsed from them are the same apart from places, be it a tree or a refusal. -/
theorem parse_relayout {source source' : String} {tokens : List (Token Position)}
    (h : tokenize source = .ok tokens)
    (hlayout : Relayout (tokens.dropLast.map Token.text) source') :
    (∃ tokens', tokenize source' = .ok tokens' ∧
      tokens'.map Token.shape = tokens.map Token.shape) ∧
    ∀ limits,
      unplaced Program.shape (Program.parse limits source') =
        unplaced Program.shape (Program.parse limits source) ∧
      unplaced Actor.shape (Actor.parse limits source') =
        unplaced Actor.shape (Actor.parse limits source) ∧
      unplaced Expr.shape (Expr.parse limits source') =
        unplaced Expr.shape (Expr.parse limits source) := by
  obtain ⟨tokens', h', hshape⟩ := exists_tokenize_of_relayout h hlayout
  refine ⟨⟨tokens', h', hshape⟩, fun limits => ?_⟩
  have hne : tokens ≠ [] := by
    obtain ⟨body, last, rfl, -⟩ := Lexer.scan_spec h
    simp
  simp only [Program.parse, Actor.parse, Expr.parse, h, h']
  exact ⟨Parser.unplaced_run (.program limits) hne hshape,
    Parser.unplaced_run (.wholeActor limits) hne hshape,
    Parser.unplaced_run (.wholeExpr limits) hne hshape⟩

/-- A comment with a parenthesis in front, and a blank, a line comment and a tab in between. -/
theorem relayout_callSample :
    Relayout ["print(", "a", ")", ";"] "/*(*/print( a//;\n)\t;" := by
  have hlead : Lexer.Filler "/*(*/".toList := @Lexer.Filler.block ['('] [] (by decide) .nil
  have hblank : Lexer.Filler [' '] := .blank (by decide) .nil
  have hline : Lexer.Filler "//;\n".toList := @Lexer.Filler.line [';'] [] (by decide) .nil
  have htab : Lexer.Filler ['\t'] := .blank (by decide) .nil
  refine ⟨_, "print( a//;\n)\t;".toList, hlead, ?_, by decide⟩
  apply Lexer.Relaid.cons hblank (by simp)
  apply Lexer.Relaid.cons hline (by simp)
  apply Lexer.Relaid.cons htab (by simp)
  exact .cons .nil (by simp) .nil

theorem parse_relayout_callSample :
    ∃ tokens, tokenize "print(a);" = .ok tokens ∧
      Relayout (tokens.dropLast.map Token.text) "/*(*/print( a//;\n)\t;" ∧
      unplaced Program.shape (Program.parse {} "/*(*/print( a//;\n)\t;") =
        unplaced Program.shape (Program.parse {} "print(a);") := by
  have htokens : tokenize "print(a);" = .ok [⟨.print, "print(", ⟨1, 1, 0⟩⟩,
      ⟨.ident, "a", ⟨1, 7, 6⟩⟩, ⟨.rparen, ")", ⟨1, 8, 7⟩⟩, ⟨.delimiter, ";", ⟨1, 9, 8⟩⟩,
      ⟨.eof, "", ⟨1, 10, 9⟩⟩] := by decide +kernel
  exact ⟨_, htokens, relayout_callSample, ((parse_relayout htokens relayout_callSample).2 {}).1⟩

end ActorLang
