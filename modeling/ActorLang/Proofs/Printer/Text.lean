import ActorLang.Proofs.Lexer

/-!
# Texts that are read as rows

A text `Seals` a row of leaves if it is read as that row whatever stands behind it, and it `Emits`
the row if this holds in front of a delimiter. Sealed texts can be put before anything; where one
text ends with a word, the next one has to begin with a delimiter. Every text that is printed is
built with these two steps.
-/

namespace ActorLang

open Leaf

/-- Without places, a token matches a leaf if class and text agree. -/
theorem Leaf.matches_unit {l : Leaf Unit} {k : TokenKind} {x : String} :
    l.Matches ⟨k, x, ()⟩ ↔ k = l.kind ∧ ∀ y ∈ l.text, x = y :=
  ⟨fun h => ⟨h.kind, h.text⟩, fun h => ⟨h.1, h.2, fun _ _ => rfl⟩⟩

theorem Leaf.matches_pin_unit {pos : Unit} {ls : List (Leaf Unit)} {ts : List (Token Unit)} :
    List.Forall₂ Matches (pin pos ls) ts ↔ List.Forall₂ Matches ls ts := by
  cases ls with
  | nil => rfl
  | cons l ls => simp [pin, List.forall₂_cons_left_iff, matches_pinned]

/-- The text of a name, a literal, an operator or a verdict is one lexeme of its class. -/
def Leaf.Lexical {P : Type} (l : Leaf P) : Prop :=
  l.kind.worded = true → ∀ x ∈ l.text, Lexer.IsLexeme l.kind x

instance {P : Type} (l : Leaf P) : Decidable l.Lexical :=
  inferInstanceAs (Decidable (_ → _))

theorem Leaf.lexical_mark {P : Type} (k : TokenKind) : (mark k : Leaf P).Lexical := by
  simp [Lexical, mark]

theorem Leaf.lexical_of_pin {P : Type} {pos : P} {ls : List (Leaf P)}
    (h : ∀ l ∈ pin pos ls, l.Lexical) : ∀ l ∈ ls, l.Lexical := by
  cases ls with
  | nil => exact h
  | cons l ls =>
      obtain ⟨hl, hls⟩ := List.forall_mem_cons.1 h
      exact List.forall_mem_cons.2 ⟨hl, hls⟩

namespace Lexer

/-- Apart from their places, the tokens of a text match a row. -/
def Lexes (text : List Char) (ls : List (Leaf Unit)) : Prop :=
  ∀ pos, ∃ tokens, scan 0 pos text = .ok tokens ∧
    List.Forall₂ Matches ls (tokens.map Token.shape)

theorem lexes_nil : Lexes [] [mark .eof] := by
  intro pos
  exact ⟨_, rfl, .cons (matches_mark.2 rfl) .nil⟩

theorem Reads.lexes {input text after : List Char} {k : TokenKind} {l : Leaf Unit}
    {ls : List (Leaf Unit)} (h : Reads input (some k) text after)
    (hl : l.Matches ⟨k, String.ofList text, ()⟩) (hafter : Lexes after ls) :
    Lexes input (l :: ls) := by
  intro pos
  obtain ⟨tokens, ht, hls⟩ := hafter (pos.advance text)
  refine ⟨⟨k, String.ofList text, pos⟩ :: tokens, ?_, .cons hl hls⟩
  rw [h.scan_eq, ht]
  rfl

theorem Lexes.blank {c : Char} {rest : List Char} {ls : List (Leaf Unit)}
    (hc : isBlank c = true) (h : Lexes rest ls) : Lexes (c :: rest) ls := by
  intro pos
  obtain ⟨tokens, ht, hls⟩ := h (pos.advance [c])
  refine ⟨tokens, ?_, hls⟩
  have hreads : Reads (c :: rest) none [c] rest := .piece (pieceAt_blank hc rest) rfl
  rw [hreads.scan_eq, ht]

/-- In front of a delimiter, a text is read as a row. -/
def Emits (x : String) (ls : List (Leaf Unit)) : Prop :=
  ∀ rest ms, Delimited rest → Lexes rest ms → Lexes (x.toList ++ rest) (ls ++ ms)

def Seals (x : String) (ls : List (Leaf Unit)) : Prop :=
  ∀ rest ms, Lexes rest ms → Lexes (x.toList ++ rest) (ls ++ ms)

def Delimits (x : String) : Prop :=
  x.toList.head?.any isDelimiter = true

theorem Delimits.delimited {x : String} (h : Delimits x) (rest : List Char) :
    Delimited (x.toList ++ rest) := by
  obtain ⟨c, hc, hd⟩ := (Option.any_eq_true _ _).1 h
  obtain ⟨text, htext⟩ := List.head?_eq_some_iff.1 hc
  rw [htext, List.cons_append, delimited_cons]
  exact hd

theorem Seals.emits {x : String} {ls : List (Leaf Unit)} (h : Seals x ls) : Emits x ls :=
  fun rest ms _ hrest => h rest ms hrest

theorem seals_empty : Seals "" [] :=
  fun _ _ h => h

/-- Texts that are read whatever follows can be put together freely. -/
theorem Seals.append {x y : String} {ls ms : List (Leaf Unit)} (hx : Seals x ls)
    (hy : Seals y ms) : Seals (x ++ y) (ls ++ ms) := by
  intro rest ns hrest
  rw [String.toList_append, List.append_assoc, List.append_assoc]
  exact hx _ _ (hy _ _ hrest)

theorem Seals.emit {x y : String} {ls ms : List (Leaf Unit)} (hx : Seals x ls)
    (hy : Emits y ms) : Emits (x ++ y) (ls ++ ms) := by
  intro rest ns hd hrest
  rw [String.toList_append, List.append_assoc, List.append_assoc]
  exact hx _ _ (hy _ _ hd hrest)

/-- A text that needs a delimiter behind it gets one from what follows. -/
theorem Emits.seal {x y : String} {ls ms : List (Leaf Unit)} (hx : Emits x ls)
    (hy : Seals y ms) (hd : Delimits y) : Seals (x ++ y) (ls ++ ms) := by
  intro rest ns hrest
  rw [String.toList_append, List.append_assoc, List.append_assoc]
  exact hx _ _ (hd.delimited rest) (hy _ _ hrest)

/-! ## Lexemes -/

/-- A text that is one lexeme emits it. -/
theorem IsLexeme.emits {l : Leaf Unit} {x : String} (h : IsLexeme l.kind x)
    (hl : ∀ y ∈ l.text, x = y) : Emits x [l] := by
  intro rest ms hd hrest
  refine ((isLexeme_iff.1 h).reads hd).lexes (matches_unit.2 ⟨rfl, ?_⟩) hrest
  rwa [String.ofList_toList]

theorem emits_word {k : TokenKind} {x : String} (hk : k.worded = true)
    (h : (word k x ()).Lexical) : Emits x [word k x ()] :=
  IsLexeme.emits (l := word k x ()) (h hk x rfl) (by simp [word])

theorem seals_punctuation {c : Char} {k : TokenKind} (h : punctuationKind? c = some k)
    {l : Leaf Unit} (hl : l.kind = k) (hx : l.text = none) : Seals (String.singleton c) [l] := by
  intro rest ms hrest
  have hreads : Reads (c :: rest) (some k) [c] rest := .piece (pieceAt_punctuation h rest) rfl
  have hlexes := hreads.lexes (l := l) (matches_unit.2 ⟨hl.symm, by simp [hx]⟩) hrest
  simpa using hlexes

theorem seals_blanks {x : String} (h : x.toList.all isBlank = true) : Seals x [] := by
  intro rest ms hrest
  have hall : ∀ text : List Char, text.all isBlank = true → Lexes (text ++ rest) ms := by
    intro text htext
    induction text with
    | nil => exact hrest
    | cons c text ih =>
        obtain ⟨hc, htail⟩ := Bool.and_eq_true_iff.1 htext
        exact (ih htail).blank hc
  exact hall _ h

/-- A keyword and the parenthesis behind it. -/
theorem seals_call {x : String} {l : Leaf Unit} (hx : isWord x.toList = true)
    (hk : wordKind x ≠ .typeName) (hf : x ∉ fusedNames) (hl : l.Matches ⟨wordKind x, x, ()⟩) :
    Seals (x ++ "(") [l, mark .lparen] := by
  intro rest ms hrest
  have hparen : Lexes ('(' :: rest) (mark .lparen :: ms) :=
    seals_punctuation (c := '(') rfl rfl rfl rest ms hrest
  have hlexes := (reads_before_paren hx hk hf rest).lexes (l := l)
    (by rwa [String.ofList_toList]) hparen
  simpa using hlexes

/-- A punctuated keyword. -/
theorem seals_keyword {x : String} {k : TokenKind} (h : (x, k) ∈ punctuatedKeywords)
    {l : Leaf Unit} (hl : l.kind = k) (hx : l.text = none) : Seals x [l] := by
  intro rest ms hrest
  exact (reads_keyword h rest).lexes (matches_unit.2 ⟨hl.symm, by simp [hx]⟩) hrest

end Lexer

end ActorLang
