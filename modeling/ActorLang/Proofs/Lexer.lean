import ActorLang.Proofs.Leaf
import ActorLang.Token.Lexer
import Mathlib.Data.List.TakeWhile
import Mathlib.Tactic.Conv

/-!
# Lexemes in their surroundings

A lexeme is read as itself when it stands alone, and again in front of every text that cannot be
taken for a part of it. The first fact holds of all lexemes of a scanned text; with the second one
a text can be put together from lexemes.
-/

namespace ActorLang

variable {P : Type}

def Token.shape (t : Token P) : Token Unit :=
  t.map fun _ => ()

namespace Lexer

/-! ## Pieces -/

theorem isWordStart_iff {c : Char} : isWordStart c = true ↔
    (65 ≤ c.toNat ∧ c.toNat ≤ 90) ∨ (97 ≤ c.toNat ∧ c.toNat ≤ 122) ∨ c.toNat = 95 := by
  have halpha : c.isAlpha = (c.isUpper || c.isLower) := rfl
  have hupper : c.isUpper = decide (c.val ≥ 65 ∧ c.val ≤ 90) := rfl
  have hlower : c.isLower = (decide (c.val ≥ 97) && decide (c.val ≤ 122)) := rfl
  simp [isWordStart, halpha, hupper, hlower, ← Char.toNat_inj, UInt32.le_iff_toNat_le, or_assoc]

theorem isDigit_iff {c : Char} : c.isDigit = true ↔ 48 ≤ c.toNat ∧ c.toNat ≤ 57 := by
  simp [Char.isDigit, UInt32.le_iff_toNat_le]

theorem isWordChar_iff {c : Char} :
    isWordChar c = true ↔ isWordStart c = true ∨ c.isDigit = true := by
  simp [isWordChar, isWordStart, Char.isAlphanum, or_right_comm]

theorem pieceAt_blank {c : Char} (h : isBlank c = true) (rest : List Char) :
    pieceAt c rest = .ok ⟨none, [c]⟩ :=
  if_pos h

theorem pieceAt_word {c : Char} (h : isWordStart c = true) (rest : List Char) :
    pieceAt c rest = .ok (wordPiece (c :: rest)) := by
  have hblank : ¬ isBlank c = true := by
    rw [isWordStart_iff] at h
    simp [isBlank]
    omega
  unfold pieceAt
  rw [if_neg hblank, if_pos h]

theorem pieceAt_digits {c : Char} (h : c.isDigit = true) (rest : List Char) :
    pieceAt c rest = .ok ⟨some .str, c :: rest.takeWhile Char.isDigit⟩ := by
  have hcode := isDigit_iff.1 h
  have hblank : ¬ isBlank c = true := by
    simp [isBlank]
    omega
  have hword : ¬ isWordStart c = true := by
    rw [isWordStart_iff]
    omega
  unfold pieceAt
  rw [if_neg hblank, if_neg hword, if_pos h]

theorem pieceAt_quoted {rest body : List Char} (h : stringBody rest = .ok body) :
    pieceAt '"' rest = .ok ⟨some .str, '"' :: body⟩ := by
  have hpiece : pieceAt '"' rest =
      (stringBody rest).map fun body => ⟨some .str, '"' :: body⟩ := rfl
  rw [hpiece, h]
  rfl

theorem pieceAt_operator {c : Char} (h : c = '=' ∨ c = '!') (rest : List Char) :
    pieceAt c ('=' :: rest) = .ok ⟨some .binOp, [c, '=']⟩ := by
  rcases h with rfl | rfl <;> rfl

theorem pieceAt_assign {rest : List Char} (h : rest.head? ≠ some '=') :
    pieceAt '=' rest = .ok ⟨some .assign, ['=']⟩ := by
  unfold pieceAt
  rw [if_neg (by decide), if_neg (by decide), if_neg (by decide)]
  split <;> simp_all

theorem pieceAt_punctuation {c : Char} {k : TokenKind} (h : punctuationKind? c = some k)
    (rest : List Char) : pieceAt c rest = .ok ⟨some k, [c]⟩ := by
  unfold punctuationKind? at h
  split at h
  all_goals
    cases h
    try rfl

/-- What a piece consists of that begins with `c` and goes on into `rest`. -/
inductive Begins (c : Char) (rest : List Char) : Piece → Prop
  | blank (h : isBlank c = true) : Begins c rest ⟨none, [c]⟩
  | word (h : isWordStart c = true) : Begins c rest (wordPiece (c :: rest))
  | digits (h : c.isDigit = true) : Begins c rest ⟨some .str, c :: rest.takeWhile Char.isDigit⟩
  | lineComment {text : List Char} (hc : c = '/') (h : rest = '/' :: text) :
      Begins c rest ⟨none, '/' :: '/' :: text.takeWhile (· != '\n')⟩
  | blockComment {text body : List Char} (hc : c = '/') (h : rest = '*' :: text)
      (hbody : commentBody? text = some body) : Begins c rest ⟨none, '/' :: '*' :: body⟩
  | quoted {body : List Char} (hc : c = '"') (hbody : stringBody rest = .ok body) :
      Begins c rest ⟨some .str, '"' :: body⟩
  | operator {text : List Char} (hc : c = '=' ∨ c = '!') (h : rest = '=' :: text) :
      Begins c rest ⟨some .binOp, [c, '=']⟩
  | assign (hc : c = '=') : Begins c rest ⟨some .assign, ['=']⟩
  | punctuation {k : TokenKind} (h : punctuationKind? c = some k) : Begins c rest ⟨some k, [c]⟩

/-- Inverts the choice of a piece: each case says what the piece and the text behind it look like.
-/
theorem begins_of_pieceAt {c : Char} {rest : List Char} {piece : Piece}
    (h : pieceAt c rest = .ok piece) : Begins c rest piece := by
  unfold pieceAt at h
  split at h
  · obtain rfl := Except.ok.inj h
    exact .blank ‹_›
  split at h
  · obtain rfl := Except.ok.inj h
    exact .word ‹_›
  split at h
  · obtain rfl := Except.ok.inj h
    exact .digits ‹_›
  split at h
  · obtain rfl := Except.ok.inj h
    exact .lineComment rfl rfl
  · split at h
    · obtain rfl := Except.ok.inj h
      exact .blockComment rfl rfl ‹_›
    · cases h
  · cases hbody : stringBody rest with
    | error fault =>
        rw [hbody] at h
        cases h
    | ok body =>
        rw [hbody] at h
        obtain rfl := Except.ok.inj h
        exact .quoted rfl hbody
  · obtain rfl := Except.ok.inj h
    exact .operator (.inl rfl) rfl
  · obtain rfl := Except.ok.inj h
    exact .assign rfl
  · obtain rfl := Except.ok.inj h
    exact .operator (.inr rfl) rfl
  · cases h
  · split at h
    · obtain rfl := Except.ok.inj h
      exact .punctuation ‹_›
    · cases h

theorem map_eq_ok {ε α β : Type} {f : α → β} {x : Except ε α} {b : β} :
    x.map f = .ok b ↔ ∃ a, x = .ok a ∧ f a = b := by
  cases x <;> simp [Except.map]

theorem map_eq_error {ε α β : Type} {f : α → β} {x : Except ε α} {e : ε} :
    x.map f = .error e ↔ x = .error e := by
  cases x <;> simp [Except.map]

theorem prefix_of_commentBody? {text body : List Char} (h : commentBody? text = some body) :
    body <+: text := by
  fun_induction commentBody? text generalizing body with
  | case1 rest =>
      obtain rfl := Option.some.inj h
      exact ⟨rest, rfl⟩
  | case2 c rest _ ih =>
      obtain ⟨tail, htail, rfl⟩ := Option.map_eq_some_iff.1 h
      exact (List.prefix_cons_inj c).2 (ih htail)
  | case3 => cases h

/-- What may stand between the quotes of a string: a backslash takes the character behind it along,
and no other quote or line feed occurs. -/
inductive Items : List Char → Prop
  | nil : Items []
  | escape (c : Char) {text : List Char} (h : Items text) : Items ('\\' :: c :: text)
  | plain {c : Char} {text : List Char} (hquote : c ≠ '"') (hescape : c ≠ '\\')
      (hline : c ≠ '\n') (h : Items text) : Items (c :: text)

theorem Items.stringBody {text : List Char} (h : Items text) (rest : List Char) :
    stringBody (text ++ '"' :: rest) = .ok (text ++ ['"']) := by
  induction h with
  | nil => simp [Lexer.stringBody]
  | escape c h ih => simp [Lexer.stringBody, ih, Except.map]
  | plain hquote hescape hline h ih =>
      simp [Lexer.stringBody, hquote, hescape, hline, ih, Except.map]

/-- A string ends with the first quote that no backslash takes along. -/
theorem items_of_stringBody {text body : List Char} (h : stringBody text = .ok body) :
    ∃ items rest, Items items ∧ body = items ++ ['"'] ∧ text = items ++ '"' :: rest := by
  fun_induction stringBody text generalizing body with
  | case1 | case2 | case5 => cases h
  | case3 c rest ih =>
      obtain ⟨tail, htail, rfl⟩ := map_eq_ok.1 h
      obtain ⟨items, after, hitems, rfl, rfl⟩ := ih htail
      exact ⟨'\\' :: c :: items, after, .escape c hitems, rfl, rfl⟩
  | case4 rest =>
      obtain rfl := Except.ok.inj h
      exact ⟨[], rest, .nil, rfl, rfl⟩
  | case6 c rest hlast hescape hquote hline ih =>
      obtain ⟨tail, htail, rfl⟩ := map_eq_ok.1 h
      obtain ⟨items, after, hitems, rfl, rfl⟩ := ih htail
      -- A backslash would have been read together with the character behind it.
      have hc : c ≠ '\\' := by
        rintro rfl
        obtain ⟨d, tail, hd⟩ := List.exists_cons_of_ne_nil (l := items ++ '"' :: after) (by simp)
        exact hescape d tail rfl hd
      exact ⟨c :: items, after, .plain hquote hc hline hitems, rfl, rfl⟩

/-! ## Words -/

def WordEnds (rest : List Char) : Prop :=
  ∀ c ∈ rest.head?, isWordChar c = false

theorem takeWhile_append_of_ends {p : Char → Bool} {w rest : List Char}
    (hw : ∀ c ∈ w, p c = true) (hrest : ∀ c ∈ rest.head?, p c = false) :
    (w ++ rest).takeWhile p = w := by
  rw [List.takeWhile_append_of_pos hw]
  cases rest with
  | nil => simp
  | cons c rest => simp [hrest c rfl]

/-- No punctuated keyword begins with a word and goes on as the text behind it does. -/
def Unfused (w rest : List Char) : Prop :=
  ∀ k ∈ punctuatedKeywords, k.1.toList.takeWhile isWordChar = w →
    (k.1.toList.dropWhile isWordChar).head? ≠ rest.head?

theorem wordPiece_append {w rest : List Char} (hw : ∀ c ∈ w, isWordChar c = true)
    (hrest : WordEnds rest) (hf : Unfused w rest) :
    wordPiece (w ++ rest) = ⟨some (wordKind (String.ofList w)), w⟩ := by
  have htake : (w ++ rest).takeWhile isWordChar = w := takeWhile_append_of_ends hw hrest
  have hfind : punctuatedKeywords.find? (fun k =>
      w.length < k.1.toList.length && k.1.toList.isPrefixOf (w ++ rest)) = none := by
    refine List.find?_eq_none.2 fun k hk hfound => ?_
    obtain ⟨hlen, after, hafter⟩ : w.length < k.1.toList.length ∧ k.1.toList <+: w ++ rest := by
      simpa using hfound
    -- The keyword is the word and a stretch of what follows it.
    obtain ⟨tail, htail⟩ : ∃ tail, k.1.toList = w ++ tail := by
      obtain ⟨tail, h⟩ := List.prefix_of_prefix_length_le (List.prefix_append w rest)
        ⟨after, hafter⟩ (Nat.le_of_lt hlen)
      exact ⟨tail, h.symm⟩
    cases tail with
    | nil =>
        rw [htail] at hlen
        simp at hlen
    | cons c tail =>
        have hhead : rest.head? = some c := by
          rw [htail, List.append_assoc] at hafter
          rw [← List.append_cancel_left hafter]
          rfl
        have hends : ∀ d ∈ (c :: tail).head?, isWordChar d = false := by
          intro d hd
          obtain rfl : c = d := by simpa using hd
          exact hrest c hhead
        have hdrop : (w ++ c :: tail).dropWhile isWordChar = c :: tail := by
          rw [List.dropWhile_append_of_pos hw]
          simp [hends c rfl]
        refine hf k hk ?_ ?_
        · rw [htail]
          exact takeWhile_append_of_ends hw hends
        · rw [htail, hdrop, hhead]
          rfl
  simp only [wordPiece, htake]
  rw [show punctuatedKeywords.find? _ = none from hfind]

/-- A word, or the punctuated keyword that the text begins with. -/
theorem wordPiece_cases (text : List Char) :
    (∃ k ∈ punctuatedKeywords, k.1.toList <+: text ∧ wordPiece text = ⟨some k.2, k.1.toList⟩) ∨
      wordPiece text = ⟨some (wordKind (String.ofList (text.takeWhile isWordChar))),
        text.takeWhile isWordChar⟩ := by
  simp only [wordPiece]
  generalize hfind : punctuatedKeywords.find? _ = found
  cases found with
  | none => exact .inr rfl
  | some k =>
      refine .inl ⟨k, List.mem_of_find?_eq_some hfind, ?_, rfl⟩
      have hk := List.find?_some hfind
      simpa using (Bool.and_eq_true_iff.1 hk).2

/-! ## Lexemes -/

/-- The lexemes of each class. -/
inductive Lexeme : TokenKind → List Char → Prop
  | keyword {x : String} {k : TokenKind} (h : (x, k) ∈ punctuatedKeywords) : Lexeme k x.toList
  | word {c : Char} {text : List Char} (hc : isWordStart c = true)
      (h : ∀ d ∈ text, isWordChar d = true) :
      Lexeme (wordKind (String.ofList (c :: text))) (c :: text)
  | digits {c : Char} {text : List Char} (hc : c.isDigit = true)
      (h : ∀ d ∈ text, d.isDigit = true) : Lexeme .str (c :: text)
  | quoted {items : List Char} (h : Items items) : Lexeme .str ('"' :: (items ++ ['"']))
  | operator {c : Char} (hc : c = '=' ∨ c = '!') : Lexeme .binOp [c, '=']
  | assign : Lexeme .assign ['=']
  | punctuation {c : Char} {k : TokenKind} (h : punctuationKind? c = some k) : Lexeme k [c]

theorem wordKind_ne_eof (word : String) : wordKind word ≠ .eof := by
  unfold wordKind
  split
  all_goals
    try split
    all_goals simp

theorem Lexeme.ne_eof {k : TokenKind} {text : List Char} (h : Lexeme k text) : k ≠ .eof := by
  cases h with
  | keyword h =>
      have hkeywords : ∀ k ∈ punctuatedKeywords, k.2 ≠ .eof := by decide
      exact hkeywords _ h
  | word => exact wordKind_ne_eof _
  | punctuation h =>
      rintro rfl
      unfold punctuationKind? at h
      split at h
      all_goals cases h
  | digits | quoted | operator | assign => simp

/-- A piece is cut from the text at hand, and it is a lexeme if it has a class. -/
theorem Begins.spec {c : Char} {rest : List Char} {piece : Piece} (h : Begins c rest piece) :
    (∃ text, piece.text = c :: text ∧ text <+: rest) ∧ ∀ k ∈ piece.kind, Lexeme k piece.text := by
  cases h with
  | blank => exact ⟨⟨[], rfl, List.nil_prefix⟩, by simp⟩
  | word hc =>
      rcases wordPiece_cases (c :: rest) with ⟨⟨x, k⟩, hk, hpre, heq⟩ | heq
      · have hkeywords : ∀ k ∈ punctuatedKeywords, k.1.toList ≠ [] := by decide
        obtain ⟨d, text, hd⟩ := List.exists_cons_of_ne_nil (hkeywords _ hk)
        rw [hd, List.cons_prefix_cons] at hpre
        obtain ⟨rfl, hpre⟩ := hpre
        rw [heq]
        refine ⟨⟨text, hd, hpre⟩, ?_⟩
        rintro _ ⟨⟩
        exact .keyword hk
      · rw [heq, List.takeWhile_cons_of_pos (isWordChar_iff.2 (.inl hc))]
        refine ⟨⟨_, rfl, List.takeWhile_prefix _⟩, ?_⟩
        rintro _ ⟨⟩
        exact .word hc fun d hd => List.mem_takeWhile_imp hd
  | digits hc =>
      refine ⟨⟨_, rfl, List.takeWhile_prefix _⟩, ?_⟩
      rintro _ ⟨⟩
      exact .digits hc fun d hd => List.mem_takeWhile_imp hd
  | lineComment hc h =>
      subst hc h
      exact ⟨⟨_, rfl, (List.prefix_cons_inj '/').2 (List.takeWhile_prefix _)⟩, by simp⟩
  | blockComment hc h hbody =>
      subst hc h
      exact ⟨⟨_, rfl, (List.prefix_cons_inj '*').2 (prefix_of_commentBody? hbody)⟩, by simp⟩
  | quoted hc hbody =>
      subst hc
      obtain ⟨items, after, hitems, rfl, rfl⟩ := items_of_stringBody hbody
      refine ⟨⟨_, rfl, after, by simp⟩, ?_⟩
      rintro _ ⟨⟩
      exact .quoted hitems
  | operator hc h =>
      subst h
      refine ⟨⟨_, rfl, ⟨_, rfl⟩⟩, ?_⟩
      rintro _ ⟨⟩
      exact .operator hc
  | assign hc =>
      subst hc
      refine ⟨⟨[], rfl, List.nil_prefix⟩, ?_⟩
      rintro _ ⟨⟩
      exact .assign
  | punctuation h =>
      refine ⟨⟨[], rfl, List.nil_prefix⟩, ?_⟩
      rintro _ ⟨⟩
      exact .punctuation h

def isDelimiter (c : Char) : Bool :=
  !isWordChar c && c != '(' && c != '.' && c != '='

def Delimited (rest : List Char) : Prop :=
  ∀ c ∈ rest.head?, isDelimiter c = true

@[simp] theorem delimited_nil : Delimited [] := by
  simp [Delimited]

@[simp] theorem delimited_cons {c : Char} {rest : List Char} :
    Delimited (c :: rest) ↔ isDelimiter c = true := by
  simp [Delimited]

theorem Delimited.wordEnds {rest : List Char} (h : Delimited rest) : WordEnds rest := by
  intro c hc
  have hd := h c hc
  simp only [isDelimiter, Bool.and_eq_true, Bool.not_eq_true'] at hd
  exact hd.1.1.1

theorem Delimited.unfused {rest : List Char} (h : Delimited rest) (w : List Char) :
    Unfused w rest := by
  have hkeywords : ∀ k ∈ punctuatedKeywords,
      ((k.1.toList.dropWhile isWordChar).head?.any fun c => !isDelimiter c) = true := by decide
  intro k hk _ hhead
  have hany := hkeywords k hk
  rw [hhead] at hany
  obtain ⟨c, hc, hd⟩ := (Option.any_eq_true _ _).1 hany
  simp [h c hc] at hd

/-- A punctuated keyword is read whatever follows. -/
theorem wordPiece_keyword {x : String} {k : TokenKind} (h : (x, k) ∈ punctuatedKeywords)
    (rest : List Char) : wordPiece (x.toList ++ rest) = ⟨some k, x.toList⟩ := by
  simp only [punctuatedKeywords, List.mem_cons, Prod.mk.injEq, List.not_mem_nil, or_false] at h
  rcases h with ⟨rfl, rfl⟩ | ⟨rfl, rfl⟩ | ⟨rfl, rfl⟩ | ⟨rfl, rfl⟩ | ⟨rfl, rfl⟩ | ⟨rfl, rfl⟩
  all_goals rfl

/-! ## Scanning piece by piece -/

/-- Skipped characters only move the place. -/
theorem scan_skip {n : Nat} {text : List Char} (hn : n ≤ text.length) (pos : Position) :
    scan n pos text = scan 0 (pos.advance (text.take n)) (text.drop n) := by
  induction text generalizing n pos with
  | nil =>
      obtain rfl : n = 0 := by simpa using hn
      rfl
  | cons c rest ih =>
      cases n with
      | zero => rfl
      | succ n => exact ih (Nat.le_of_succ_le_succ hn) (pos.step c)

inductive Reads : List Char → Option TokenKind → List Char → List Char → Prop
  | piece {c : Char} {text rest after : List Char} {kind : Option TokenKind}
      (h : pieceAt c rest = .ok ⟨kind, c :: text⟩) (hrest : rest = text ++ after) :
      Reads (c :: rest) kind (c :: text) after

/-- Scanning takes the first piece and goes on behind it. -/
theorem Reads.scan_eq {input text after : List Char} {kind : Option TokenKind}
    (h : Reads input kind text after) (pos : Position) :
    scan 0 pos input =
      match kind with
      | none => scan 0 (pos.advance text) after
      | some kind =>
        (scan 0 (pos.advance text) after).map (⟨kind, String.ofList text, pos⟩ :: ·) := by
  obtain ⟨h, rfl⟩ := h
  rename_i c text
  have hskip : scan text.length (pos.step c) (text ++ after) =
      scan 0 (pos.advance (c :: text)) after := by
    rw [scan_skip (by simp)]
    simp
  rw [← hskip]
  conv_lhs => unfold scan
  rw [h]
  cases kind <;> rfl


theorem reads_word {c : Char} {text rest : List Char} (hc : isWordStart c = true)
    (h : ∀ d ∈ text, isWordChar d = true) (hrest : WordEnds rest)
    (hf : Unfused (c :: text) rest) :
    Reads (c :: text ++ rest) (some (wordKind (String.ofList (c :: text)))) (c :: text) rest := by
  have hword : ∀ d ∈ c :: text, isWordChar d = true :=
    List.forall_mem_cons.2 ⟨isWordChar_iff.2 (.inl hc), h⟩
  have hpiece := pieceAt_word hc (text ++ rest)
  rw [← List.cons_append, wordPiece_append hword hrest hf] at hpiece
  exact .piece hpiece rfl

theorem reads_keyword {x : String} {k : TokenKind} (h : (x, k) ∈ punctuatedKeywords)
    (rest : List Char) : Reads (x.toList ++ rest) (some k) x.toList rest := by
  have hkeywords : ∀ k ∈ punctuatedKeywords, (k.1.toList.head?.any isWordStart) = true := by
    decide
  obtain ⟨c, hc, hstart⟩ := (Option.any_eq_true _ _).1 (hkeywords _ h)
  obtain ⟨text, htext⟩ := List.head?_eq_some_iff.1 hc
  have hpiece : pieceAt c (text ++ rest) = .ok ⟨some k, c :: text⟩ := by
    rw [pieceAt_word hstart, ← List.cons_append, ← htext]
    exact congrArg Except.ok (wordPiece_keyword h rest)
  rw [htext]
  exact .piece hpiece rfl

/-- In front of a delimiter, a lexeme is read as itself. -/
theorem Lexeme.reads {k : TokenKind} {text rest : List Char} (h : Lexeme k text)
    (hrest : Delimited rest) : Reads (text ++ rest) (some k) text rest := by
  cases h with
  | keyword h => exact reads_keyword h rest
  | @word c text hc h => exact reads_word hc h hrest.wordEnds (hrest.unfused _)
  | @digits c text hc h =>
      have hends : ∀ d ∈ rest.head?, d.isDigit = false := by
        intro d hd
        have hword := hrest.wordEnds d hd
        rw [← Bool.not_eq_true, isWordChar_iff, not_or] at hword
        simpa using hword.2
      have hpiece : pieceAt c (text ++ rest) = .ok ⟨some .str, c :: text⟩ := by
        rw [pieceAt_digits hc, takeWhile_append_of_ends h hends]
      exact .piece hpiece rfl
  | quoted h => exact .piece (pieceAt_quoted (by simpa using h.stringBody rest)) rfl
  | operator hc => exact .piece (pieceAt_operator hc rest) rfl
  | assign =>
      refine .piece (pieceAt_assign fun hc => ?_) rfl
      have hd := hrest '=' hc
      simp [isDelimiter] at hd
  | punctuation h => exact .piece (pieceAt_punctuation h rest) rfl

def IsLexeme (k : TokenKind) (text : String) : Prop :=
  Reads text.toList (some k) text.toList []

theorem Reads.lexeme {input text after : List Char} {k : TokenKind}
    (h : Reads input (some k) text after) : Lexeme k text := by
  obtain ⟨h, -⟩ := h
  exact (begins_of_pieceAt h).spec.2 k rfl

instance (k : TokenKind) (text : String) : Decidable (IsLexeme k text) :=
  match h : text.toList with
  | [] => .isFalse fun hreads => by
      unfold IsLexeme at hreads
      rw [h] at hreads
      cases hreads
  | c :: rest =>
      decidable_of_iff (pieceAt c rest = .ok ⟨some k, c :: rest⟩) (by
        unfold IsLexeme
        rw [h]
        refine ⟨fun hpiece => .piece hpiece (List.append_nil rest).symm, ?_⟩
        rintro ⟨hpiece, -⟩
        exact hpiece)

/-- The texts that are scanned as one lexeme are those that the description of the classes gives. -/
theorem isLexeme_iff {k : TokenKind} {text : String} : IsLexeme k text ↔ Lexeme k text.toList := by
  constructor
  · exact Reads.lexeme
  · intro h
    have hreads := h.reads delimited_nil
    rwa [List.append_nil] at hreads

/-! ## Words before a parenthesis -/

/-- The names that become another lexeme when a parenthesis follows. -/
def fusedNames : List String :=
  ["print", "execute"]

/-- A word before a parenthesis is a part of a keyword only if it is a fused name or could be the
name of a type. -/
theorem unfused_of_wordKind {w : List Char} (hk : wordKind (String.ofList w) ≠ .typeName)
    (hw : String.ofList w ∉ fusedNames) (rest : List Char) : Unfused w rest := by
  have hkeywords : ∀ k ∈ punctuatedKeywords,
      wordKind (String.ofList (k.1.toList.takeWhile isWordChar)) = .typeName ∨
        String.ofList (k.1.toList.takeWhile isWordChar) ∈ fusedNames := by decide
  rintro k hkeyword rfl
  rcases hkeywords k hkeyword with h | h
  · exact absurd h hk
  · exact absurd h hw

def isWord (text : List Char) : Bool :=
  text.head?.any isWordStart && text.all isWordChar

theorem reads_before_paren {x : String} (hx : isWord x.toList = true)
    (hk : wordKind x ≠ .typeName) (hf : x ∉ fusedNames) (rest : List Char) :
    Reads (x.toList ++ '(' :: rest) (some (wordKind x)) x.toList ('(' :: rest) := by
  obtain ⟨text, rfl⟩ : ∃ text, x = String.ofList text := ⟨x.toList, String.ofList_toList.symm⟩
  rw [String.toList_ofList] at hx ⊢
  obtain ⟨hhead, hall⟩ := Bool.and_eq_true_iff.1 hx
  obtain ⟨c, hc, hstart⟩ := (Option.any_eq_true _ _).1 hhead
  obtain ⟨text, rfl⟩ := List.head?_eq_some_iff.1 hc
  have htext : ∀ d ∈ text, isWordChar d = true := fun d hd =>
    List.all_eq_true.1 hall d (List.mem_cons_of_mem c hd)
  exact reads_word hstart htext (by simp [WordEnds, isWordChar, Char.isAlphanum])
    (unfused_of_wordKind hk hf _)

theorem IsLexeme.word_of_ident {x : String} (h : IsLexeme .ident x) :
    isWord x.toList = true ∧ wordKind x = .ident := by
  obtain ⟨text, rfl⟩ : ∃ text, x = String.ofList text := ⟨x.toList, String.ofList_toList.symm⟩
  rw [isLexeme_iff, String.toList_ofList] at h
  rw [String.toList_ofList]
  generalize hk : TokenKind.ident = k at h ⊢
  cases h with
  | keyword h =>
      have hkeywords : ∀ k ∈ punctuatedKeywords, k.2 ≠ .ident := by decide
      exact absurd hk.symm (hkeywords _ h)
  | word hc h =>
      refine ⟨?_, rfl⟩
      simpa [isWord, hc, isWordChar_iff.2 (.inl hc)] using h
  | punctuation h =>
      subst hk
      unfold punctuationKind? at h
      split at h
      all_goals cases h
  | digits | quoted | operator | assign => cases hk

/-! ## The tokens of a text -/

theorem exists_reads {c : Char} {rest : List Char} {piece : Piece}
    (h : pieceAt c rest = .ok piece) : ∃ after, Reads (c :: rest) piece.kind piece.text after := by
  obtain ⟨text, htext, after, hafter⟩ := (begins_of_pieceAt h).spec.1
  obtain ⟨kind, _⟩ := piece
  subst htext
  exact ⟨after, .piece h hafter.symm⟩

theorem Reads.length_lt {input text after : List Char} {kind : Option TokenKind}
    (h : Reads input kind text after) : after.length < input.length := by
  obtain ⟨-, rfl⟩ := h
  simp only [List.length_cons, List.length_append]
  omega

/-- A scan gives lexemes and the end of the input. -/
theorem scan_spec {text : List Char} {pos : Position} {tokens : List (Token Position)}
    (h : scan 0 pos text = .ok tokens) :
    ∃ body last, tokens = body ++ [last] ∧ last.kind = .eof ∧
      ∀ t ∈ body, t.kind ≠ .eof ∧ IsLexeme t.kind t.text := by
  induction hn : text.length using Nat.strong_induction_on generalizing text pos tokens with
  | _ n ih =>
      subst hn
      cases text with
      | nil =>
          obtain rfl := Except.ok.inj h
          exact ⟨[], _, rfl, rfl, by simp⟩
      | cons c rest =>
          cases hpiece : pieceAt c rest with
          | error fault =>
              unfold scan at h
              rw [hpiece] at h
              cases h
          | ok piece =>
              obtain ⟨after, hreads⟩ := exists_reads hpiece
              rw [hreads.scan_eq] at h
              obtain ⟨kind, lexeme⟩ := piece
              cases kind with
              | none => exact ih _ hreads.length_lt h rfl
              | some k =>
                  obtain ⟨rows, hrows, rfl⟩ := map_eq_ok.1 h
                  obtain ⟨body, last, rfl, hlast, hbody⟩ := ih _ hreads.length_lt hrows rfl
                  refine ⟨_ :: body, last, rfl, hlast, List.forall_mem_cons.2 ⟨⟨?_, ?_⟩, hbody⟩⟩
                  · exact hreads.lexeme.ne_eof
                  · rw [isLexeme_iff, String.toList_ofList]
                    exact hreads.lexeme

end Lexer

end ActorLang
