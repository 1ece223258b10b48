import ActorLang.Proofs.Lexer.Lines
import ActorLang.Proofs.Lexer.Position
import ActorLang.Token.Quoted

/-!
# Strings and their values

Every text on one line is the value of a literal: it is put between quotes, and a backslash goes in
front of each quote and each backslash. What the scanner takes for such a literal and what is taken
for its value are found by two separate readers of escapes. They agree on every literal of a source:
between the quotes no quote stands free, and no backslash stands alone.
-/

namespace ActorLang

namespace Quoted

def escape : List Char → List Char
  | [] => []
  | c :: rest => if c = '"' ∨ c = '\\' then '\\' :: c :: escape rest else c :: escape rest

/-- The literal that stands for a text. -/
def literal (v : String) : String :=
  String.ofList ('"' :: (escape v.toList ++ ['"']))

/-- What is read at once where the value of a literal is found. -/
inductive Item
  | plain (c : Char)
  | escaped (c : Char)
  /-- A backslash with nothing behind it. -/
  | lone
deriving DecidableEq

def Item.value : Item → List Char
  | plain c => [c]
  | escaped c => if c = '"' ∨ c = '\\' then [c] else ['\\', c]
  | lone => ['\\']

def items : List Char → List Item
  | [] => []
  | ['\\'] => [.lone]
  | '\\' :: c :: rest => .escaped c :: items rest
  | c :: rest => .plain c :: items rest

/-- The value of a literal is found item by item. -/
theorem unescape_eq_items (text : List Char) : unescape text = (items text).flatMap Item.value := by
  fun_induction items text with
  | case1 => rfl
  | case2 => rfl
  | case3 c rest ih =>
      rw [List.flatMap_cons, ← ih]
      by_cases hquote : c = '"'
      · simp [unescape, Item.value, hquote]
      · by_cases hescape : c = '\\'
        · simp [unescape, Item.value, hescape]
        · simp [unescape, Item.value, hquote, hescape]
  | case4 c rest hlone hescape ih =>
      rw [List.flatMap_cons, ← ih]
      have hc : c ≠ '\\' := by
        rintro rfl
        cases rest with
        | nil => exact hlone rfl rfl
        | cons d rest => exact hescape d rest rfl rfl
      simp [unescape, Item.value, hc]

theorem unescape_escape (text : List Char) : unescape (escape text) = text := by
  induction text with
  | nil => rfl
  | cons c rest ih =>
      by_cases hquote : c = '"'
      · simp [escape, unescape, hquote, ih]
      · by_cases hescape : c = '\\'
        · simp [escape, unescape, hescape, ih]
        · simp [escape, unescape, hquote, hescape, ih]

theorem inner?_quoted (text : List Char) : inner? ('"' :: (text ++ ['"'])) = some text := by
  simp [inner?]

theorem value_literal (v : String) : value (literal v) = v := by
  rw [value, literal, String.toList_ofList, inner?_quoted]
  simp [unescape_escape]

end Quoted

namespace Lexer

open Quoted

/-- On one line, the characters of an escaped text are those of a string. -/
theorem items_escape {text : List Char} (h : '\n' ∉ text) : Items (escape text) := by
  induction text with
  | nil => exact .nil
  | cons c rest ih =>
      obtain ⟨hline, hrest⟩ := not_or.1 (List.mem_cons.not.1 h)
      unfold escape
      split
      case isTrue => exact .escape c (ih hrest)
      case isFalse hc =>
        obtain ⟨hquote, hescape⟩ := not_or.1 hc
        exact .plain hquote hescape (Ne.symm hline) (ih hrest)

/-- A line feed in a text is not hidden by the backslashes that are added to it. -/
theorem stringBody_escape {text : List Char} (h : '\n' ∈ text) (rest : List Char) :
    stringBody (escape text ++ rest) = .error .unclosedString := by
  induction text with
  | nil => cases h
  | cons c text ih =>
      unfold escape
      split
      case isTrue hc =>
        have hline : '\n' ≠ c := by
          rintro rfl
          exact absurd hc (by decide)
        have hbody := ih (List.mem_of_ne_of_mem hline h)
        simp [stringBody, hbody, Except.map]
      case isFalse hc =>
        obtain ⟨hquote, hescape⟩ := not_or.1 hc
        by_cases hline : c = '\n'
        · simp [stringBody, hline]
        · have hbody := ih (List.mem_of_ne_of_mem (Ne.symm hline) h)
          simp [stringBody, hquote, hescape, hline, hbody, Except.map]

theorem tokenize_literal {v : String} (h : '\n' ∉ v.toList) :
    tokenize (literal v) = .ok [⟨.str, literal v, .start⟩,
      ⟨.eof, "", (Position.behind (literal v).toList).wrapped⟩] := by
  have hreads : Reads (literal v).toList (some .str) (literal v).toList [] := by
    apply isLexeme_iff.2
    rw [literal, String.toList_ofList]
    exact .quoted (items_escape h)
  rw [tokenize, hreads.scan_eq, Position.advance_start, String.ofList_toList]
  rfl

theorem tokenize_literal_of_line {v : String} (h : '\n' ∈ v.toList) :
    tokenize (literal v) = .error ⟨.lexical LexicalFault.unclosedString.message, .start⟩ := by
  rw [tokenize, literal, String.toList_ofList]
  apply scan_stuck
  have hpiece : pieceAt '"' (escape v.toList ++ ['"']) =
      (stringBody (escape v.toList ++ ['"'])).map fun body => ⟨some .str, '"' :: body⟩ := rfl
  rw [hpiece, stringBody_escape h]
  rfl

/-- The two readers cut a string in the same way: each item is one of the other's. -/
theorem Items.closed {text : List Char} (h : Items text) :
    Item.plain '"' ∉ items text ∧ Item.lone ∉ items text := by
  induction h with
  | nil => simp [items]
  | escape c h ih => simpa [items] using ih
  | @plain c text hquote hescape hline h ih =>
      have hitems : items (c :: text) = .plain c :: items text := by
        simp [items, hescape]
      rw [hitems]
      simpa [Ne.symm hquote] using ih

/-- A literal that begins with a quote has another one at its end. -/
theorem Lexeme.exists_items {text : List Char} (h : Lexeme .str text)
    (hquote : text.head? = some '"') : ∃ inner, Items inner ∧ text = '"' :: (inner ++ ['"']) := by
  generalize hk : TokenKind.str = k at h
  cases h with
  | @quoted inner h => exact ⟨inner, h, rfl⟩
  | digits hc =>
      obtain rfl := Option.some.inj hquote
      exact absurd hc (by decide)
  | word hc =>
      obtain rfl := Option.some.inj hquote
      exact absurd hc (by decide)
  | punctuation h =>
      obtain rfl := Option.some.inj hquote
      exact absurd h (by simp [punctuationKind?])
  | keyword h =>
      have hkeywords : ∀ k ∈ punctuatedKeywords, k.2 ≠ .str := by decide
      exact absurd hk.symm (hkeywords _ h)
  | operator | assign => cases hk

end Lexer

/-- A text on one line is the value of its literal, which is scanned as one token, and a text with a
line feed has no literal. In a source, the scanner stops at the quote that is taken off a literal
to find its value: between the quotes no quote stands free, and no backslash stands alone. -/
theorem Quoted.literal_faithful :
    (∀ v : String, '\n' ∉ v.toList →
      tokenize (literal v) = .ok [⟨.str, literal v, .start⟩,
        ⟨.eof, "", (Position.behind (literal v).toList).wrapped⟩] ∧
      value (literal v) = v) ∧
    (∀ v : String, '\n' ∈ v.toList →
      ∃ message, tokenize (literal v) = .error ⟨.lexical message, .start⟩) ∧
    ∀ (source : String) (tokens : List (Token Position)), tokenize source = .ok tokens →
      ∀ t ∈ tokens, t.kind = .str → t.text.toList.head? = some '"' →
        ∃ inner before rest, inner? t.text.toList = some inner ∧
          t.text.toList = '"' :: (inner ++ ['"']) ∧
          (Item.plain '"' ∉ items inner ∧ Item.lone ∉ items inner) ∧
          unescape inner = (items inner).flatMap Item.value ∧
          source.toList = before ++ '"' :: rest ∧ t.pos = (Position.behind before).wrapped ∧
          Lexer.stringBody rest = .ok (inner ++ ['"']) := by
  refine ⟨fun v hv => ⟨Lexer.tokenize_literal hv, value_literal v⟩,
    fun v hv => ⟨_, Lexer.tokenize_literal_of_line hv⟩, ?_⟩
  intro source tokens htokens t ht hkind hquote
  obtain ⟨body, last, rfl, hlast, hbody⟩ := Lexer.scan_spec htokens
  obtain ⟨before, after, hsource, hpos⟩ := exists_append_of_tokenize htokens t ht
  have htbody : t ∈ body := by
    rcases List.mem_append.1 ht with ht | ht
    · exact ht
    · rw [List.mem_singleton.1 ht, hlast] at hkind
      cases hkind
  have hlexeme := Lexer.isLexeme_iff.1 (hbody t htbody).2
  rw [hkind] at hlexeme
  obtain ⟨inner, hitems, htext⟩ := hlexeme.exists_items hquote
  refine ⟨inner, before, inner ++ '"' :: after, ?_, htext, hitems.closed, unescape_eq_items inner,
    ?_, hpos, hitems.stringBody after⟩
  · rw [htext, inner?_quoted]
  · rw [hsource, htext]
    simp

/-- A backslash before a quote, a backslash before a line feed, and both escapes in a source. -/
theorem Quoted.literal_faithful_escapeSample :
    ('\n' ∉ "\\\"".toList ∧ tokenize (literal "\\\"") =
      .ok [⟨.str, "\"\\\\\\\"\"", ⟨1, 1, 0⟩⟩, ⟨.eof, "", ⟨1, 7, 6⟩⟩] ∧
      value (literal "\\\"") = "\\\"") ∧
    ('\n' ∈ "\\\n".toList ∧ ∃ message, tokenize (literal "\\\n") =
      .error ⟨.lexical message, ⟨1, 1, 0⟩⟩) ∧
    tokenize "x\"\\\\\\\"\"" = .ok [⟨.ident, "x", ⟨1, 1, 0⟩⟩,
      ⟨.str, "\"\\\\\\\"\"", ⟨1, 2, 1⟩⟩, ⟨.eof, "", ⟨1, 8, 7⟩⟩] ∧
    ∃ inner, inner? "\"\\\\\\\"\"".toList = some inner ∧
      Item.plain '"' ∉ items inner ∧ Item.lone ∉ items inner := by
  have hline : '\n' ∉ "\\\"".toList := by decide
  have hbreak : '\n' ∈ "\\\n".toList := by decide
  have htokens : tokenize "x\"\\\\\\\"\"" = .ok [⟨.ident, "x", ⟨1, 1, 0⟩⟩,
      ⟨.str, "\"\\\\\\\"\"", ⟨1, 2, 1⟩⟩, ⟨.eof, "", ⟨1, 8, 7⟩⟩] := by decide +kernel
  obtain ⟨hone, hmany, hsource⟩ := Quoted.literal_faithful
  obtain ⟨inner, -, -, hinner, -, hitems, -⟩ :=
    hsource _ _ htokens ⟨.str, "\"\\\\\\\"\"", ⟨1, 2, 1⟩⟩ (by decide) rfl (by decide)
  exact ⟨⟨hline, hone _ hline⟩, ⟨hbreak, hmany _ hbreak⟩, htokens, inner, hinner, hitems⟩

end ActorLang
