import ActorLang.Proofs.Lexer
import Mathlib.Data.List.Induction

/-!
# How a text splits into tokens

A text is a row of lexemes with gaps between them. A gap is made of blanks and complete comments,
and at the end of a gap the longest lexeme is read. Scanning finds this split if there is one: the
tokens are the lexemes in their order, each at the place that the text before it determines, and
nothing of the text is lost. Of that place a token keeps what 32 bits hold of its line and column,
which is all of it as long as the text is not too long.
-/

namespace ActorLang

/-- The place behind a text: one line more than it has line feeds, one column more than it has
characters behind the last of them, and its length in bytes. -/
def Position.behind (text : List Char) : Position :=
  ⟨1 + text.count '\n', 1 + (text.reverse.takeWhile (· != '\n')).length,
    (String.ofList text).utf8ByteSize⟩

/-- What two words of 32 bits hold of the line and the column of a place. -/
def Position.wrapped (p : Position) : Position :=
  ⟨p.line % UInt32.size, p.column % UInt32.size, p.offset⟩

/-- A line feed begins a new line, and any other character takes one column. -/
theorem Position.behind_concat (text : List Char) (c : Char) :
    Position.behind (text ++ [c]) =
      if c = '\n' then
        ⟨(behind text).line + 1, 1, (behind text).offset + c.utf8Size⟩
      else
        ⟨(behind text).line, (behind text).column + 1, (behind text).offset + c.utf8Size⟩ := by
  have hbytes : (String.ofList (text ++ [c])).utf8ByteSize =
      (String.ofList text).utf8ByteSize + c.utf8Size := by
    rw [String.ofList_append, String.utf8ByteSize_append, ← String.singleton_eq_ofList,
      String.utf8ByteSize_singleton]
  rw [behind, behind, hbytes]
  by_cases hc : c = '\n'
  · simp [hc, Nat.add_assoc]
  · simp [hc, Nat.add_assoc]

/-- Counting with two words of 32 bits gives what these words hold of the exact counts. -/
theorem Position.advance_start (text : List Char) :
    Position.start.advance text = (Position.behind text).wrapped := by
  induction text using List.reverseRecOn with
  | nil => rfl
  | append_singleton text c ih =>
      rw [advance_append, ih, advance_cons, advance_nil, step, behind_concat]
      by_cases hc : c = '\n'
      · simp [hc, wrapped]
      · simp [hc, wrapped]

theorem Position.start_eq : Position.start = (Position.behind []).wrapped :=
  Position.advance_start []

theorem Position.advance_behind (before text : List Char) :
    (Position.behind before).wrapped.advance text = (Position.behind (before ++ text)).wrapped := by
  rw [← advance_start, ← advance_append, advance_start]

theorem Position.line_behind_le (text : List Char) :
    (Position.behind text).line ≤ 1 + text.length :=
  Nat.add_le_add_left List.count_le_length 1

theorem Position.column_behind_le (text : List Char) :
    (Position.behind text).column ≤ 1 + text.length := by
  have h := (List.takeWhile_sublist (l := text.reverse) (· != '\n')).length_le
  rw [List.length_reverse] at h
  exact Nat.add_le_add_left h 1

def Position.Fit (text : List Char) : Prop :=
  ∀ before, before <+: text → (Position.behind before).line < UInt32.size ∧
    (Position.behind before).column < UInt32.size

theorem Position.fit_of_length {source : String} (h : source.length < UInt32.size - 1) :
    Position.Fit source.toList := by
  intro before hbefore
  have hle := hbefore.length_le
  rw [String.length_toList] at hle
  have hline := line_behind_le before
  have hcolumn := column_behind_le before
  omega

theorem Position.Fit.wrapped_behind {text before : List Char} (h : Position.Fit text)
    (hbefore : before <+: text) : (Position.behind before).wrapped = .behind before := by
  obtain ⟨hline, hcolumn⟩ := h before hbefore
  rw [wrapped, Nat.mod_eq_of_lt hline, Nat.mod_eq_of_lt hcolumn]

namespace Lexer

/-! ## Gaps -/

inductive Skipped : List Char → List Char → Prop
  | blank {c : Char} (hc : isBlank c = true) (rest : List Char) : Skipped [c] rest
  /-- A line comment goes on to the next line feed or the end of the text. -/
  | line {body rest : List Char} (hbody : '\n' ∉ body) (hend : ∀ c ∈ rest.head?, c = '\n') :
      Skipped ('/' :: '/' :: body) rest
  /-- A block comment goes on to the first closing. -/
  | block {body : List Char} (hbody : ¬ ['*', '/'] <:+: body ++ ['*']) (rest : List Char) :
      Skipped ('/' :: '*' :: (body ++ ['*', '/'])) rest

/-- Blanks and complete comments, one after the other, in front of a text. -/
inductive Gap : List Char → List Char → Prop
  | nil (rest : List Char) : Gap [] rest
  | cons {piece gap rest : List Char} (hpiece : Skipped piece (gap ++ rest)) (h : Gap gap rest) :
      Gap (piece ++ gap) rest

theorem commentBody?_append {body : List Char} (h : ¬ ['*', '/'] <:+: body ++ ['*'])
    (rest : List Char) :
    commentBody? (body ++ '*' :: '/' :: rest) = some (body ++ ['*', '/']) := by
  induction body with
  | nil => rfl
  | cons c body ih =>
      have htail : ¬ ['*', '/'] <:+: body ++ ['*'] := fun hsub =>
        h (hsub.trans (List.suffix_cons c _).isInfix)
      have hhead : ¬ (c = '*' ∧ (body ++ '*' :: '/' :: rest).head? = some '/') := by
        rintro ⟨rfl, hslash⟩
        cases body with
        | nil => simp at hslash
        | cons d body =>
            obtain rfl : d = '/' := by simpa using hslash
            exact h ⟨[], body ++ ['*'], rfl⟩
      rw [List.cons_append, commentBody?, ih htail]
      · rfl
      · rintro text rfl htext
        exact hhead ⟨rfl, by rw [htext]; rfl⟩

theorem exists_of_commentBody? {text body : List Char} (h : commentBody? text = some body) :
    ∃ inner rest, body = inner ++ ['*', '/'] ∧ text = inner ++ '*' :: '/' :: rest ∧
      ¬ ['*', '/'] <:+: inner ++ ['*'] := by
  fun_induction commentBody? text generalizing body with
  | case1 rest =>
      obtain rfl := Option.some.inj h
      refine ⟨[], rest, rfl, rfl, fun hsub => ?_⟩
      have hlen := hsub.length_le
      simp at hlen
  | case2 c rest hopen ih =>
      obtain ⟨tail, htail, rfl⟩ := Option.map_eq_some_iff.1 h
      obtain ⟨inner, after, rfl, rfl, hinner⟩ := ih htail
      refine ⟨c :: inner, after, rfl, rfl, fun hsub => ?_⟩
      rcases List.infix_cons_iff.1 hsub with hpre | hsub
      · -- The closing would have been found at once.
        obtain ⟨rfl, hslash⟩ := List.cons_prefix_cons.1 hpre
        obtain ⟨more, hmore⟩ := hslash
        cases inner with
        | nil => simp at hmore
        | cons d inner =>
            obtain ⟨rfl, -⟩ := List.cons.inj hmore
            exact hopen _ rfl rfl
      · exact hinner hsub
  | case3 => cases h

theorem pieceAt_comment (text : List Char) : pieceAt '/' ('*' :: text) =
    match commentBody? text with
    | some body => .ok ⟨none, '/' :: '*' :: body⟩
    | none => .error .unclosedComment := rfl

theorem Skipped.reads {piece rest : List Char} (h : Skipped piece rest) :
    Reads (piece ++ rest) none piece rest := by
  cases h with
  | blank hc => exact .piece (pieceAt_blank hc rest) rfl
  | @line body _ hbody hend =>
      have htake : (body ++ rest).takeWhile (· != '\n') = body := by
        refine takeWhile_append_of_ends (fun c hc => ?_) (fun c hc => by simp [hend c hc])
        have hne : c ≠ '\n' := fun h => hbody (h ▸ hc)
        simpa using hne
      have hpiece : pieceAt '/' ('/' :: (body ++ rest)) =
          .ok ⟨none, '/' :: '/' :: (body ++ rest).takeWhile (· != '\n')⟩ := rfl
      rw [htake] at hpiece
      exact .piece hpiece rfl
  | @block body hbody =>
      have hpiece := pieceAt_comment (body ++ '*' :: '/' :: rest)
      rw [commentBody?_append hbody] at hpiece
      have hreads : Reads ('/' :: '*' :: (body ++ '*' :: '/' :: rest)) none
          ('/' :: '*' :: (body ++ ['*', '/'])) rest := .piece hpiece (by simp)
      simpa using hreads

theorem Reads.append {input text after : List Char} {kind : Option TokenKind}
    (h : Reads input kind text after) : input = text ++ after := by
  obtain ⟨-, rfl⟩ := h
  rfl

theorem Reads.pieceAt_eq {c : Char} {rest text after : List Char} {kind : Option TokenKind}
    (h : Reads (c :: rest) kind text after) : pieceAt c rest = .ok ⟨kind, text⟩ := by
  cases h with
  | piece h hrest => exact h

theorem wordPiece_kind (text : List Char) : ∃ k, (wordPiece text).kind = some k := by
  rcases wordPiece_cases text with ⟨k, -, -, h⟩ | h
  · exact ⟨_, congrArg Piece.kind h⟩
  · exact ⟨_, congrArg Piece.kind h⟩

theorem Reads.skipped {input text after : List Char} (h : Reads input none text after) :
    Skipped text after := by
  obtain ⟨hpiece, rfl⟩ := h
  rename_i c text
  generalize hp : (⟨none, c :: text⟩ : Piece) = piece at hpiece
  cases begins_of_pieceAt hpiece with
  | blank hc =>
      obtain rfl : text = [] := by simpa using congrArg Piece.text hp
      exact .blank hc after
  | word hc =>
      obtain ⟨k, hk⟩ := wordPiece_kind (c :: (text ++ after))
      rw [← hp] at hk
      cases hk
  | @lineComment tail hc htail =>
      subst hc
      obtain rfl : text = '/' :: tail.takeWhile (· != '\n') := by simpa using congrArg Piece.text hp
      have hafter : after = tail.dropWhile (· != '\n') :=
        List.append_cancel_left ((List.cons.inj htail).2.trans
          List.takeWhile_append_dropWhile.symm)
      refine .line (fun hmem => ?_) (fun c hc => ?_)
      · simpa using List.mem_takeWhile_imp hmem
      · have hstop := List.head?_dropWhile_not (· != '\n') tail
        rw [← hafter, Option.mem_def.1 hc] at hstop
        simpa using hstop
  | @blockComment tail body hc htail hbody =>
      subst hc
      obtain rfl : text = '*' :: body := by simpa using congrArg Piece.text hp
      obtain ⟨inner, rest, rfl, rfl, hinner⟩ := exists_of_commentBody? hbody
      exact .block hinner after
  | digits | quoted | operator | assign | punctuation => cases congrArg Piece.kind hp

/-! ## Longest lexemes -/

/-- A lexeme that begins a text, and that is at least as long as all others that begin it. -/
structure Longest (input : List Char) (k : TokenKind) (text : List Char) : Prop where
  lexeme : Lexeme k text
  begins : text <+: input
  longest : ∀ k' text', Lexeme k' text' → text' <+: input → text'.length ≤ text.length

theorem length_le_wordPiece {word text : List Char} (hword : ∀ c ∈ word, isWordChar c = true)
    (hpre : word <+: text) : word.length ≤ (wordPiece text).text.length := by
  have htake : word.length ≤ (text.takeWhile isWordChar).length := by
    obtain ⟨rest, rfl⟩ := hpre
    rw [List.takeWhile_append_of_pos hword, List.length_append]
    exact Nat.le_add_right _ _
  simp only [wordPiece]
  generalize hfind : punctuatedKeywords.find? _ = found
  cases found with
  | none => exact htake
  | some k =>
      have hk := List.find?_some hfind
      have hlen := of_decide_eq_true (Bool.and_eq_true_iff.1 hk).1
      exact Nat.le_trans htake (Nat.le_of_lt hlen)

/-- Where a lexeme begins a text, one is read that is not shorter. -/
theorem Lexeme.exists_piece {k : TokenKind} {text rest : List Char} {c : Char}
    (h : Lexeme k text) (hpre : text <+: c :: rest) :
    ∃ k' text', pieceAt c rest = .ok ⟨some k', text'⟩ ∧ text.length ≤ text'.length := by
  have hone : ∀ {k' : TokenKind} {piece : List Char}, pieceAt c rest = .ok ⟨some k', piece⟩ →
      text.length = 1 → ∃ k' text', pieceAt c rest = .ok ⟨some k', text'⟩ ∧
        text.length ≤ text'.length := by
    intro k' piece hpiece hlen
    obtain ⟨tail, htail, -⟩ := (begins_of_pieceAt hpiece).spec.1
    refine ⟨k', piece, hpiece, ?_⟩
    rw [hlen, show piece = c :: tail from htail]
    exact Nat.le_add_left 1 _
  cases h with
  | @keyword x k h =>
      obtain ⟨after, hafter⟩ := hpre
      have hreads := reads_keyword h after
      rw [hafter] at hreads
      exact ⟨_, _, hreads.pieceAt_eq, Nat.le_refl _⟩
  | @word d text hd hword =>
      obtain ⟨rfl, -⟩ := List.cons_prefix_cons.1 hpre
      obtain ⟨k, hk⟩ := wordPiece_kind (d :: rest)
      refine ⟨k, (wordPiece (d :: rest)).text, ?_, length_le_wordPiece ?_ hpre⟩
      · rw [pieceAt_word hd, ← hk]
      · exact List.forall_mem_cons.2 ⟨isWordChar_iff.2 (.inl hd), hword⟩
  | @digits d text hd hdigits =>
      obtain ⟨rfl, after, rfl⟩ := List.cons_prefix_cons.1 hpre
      refine ⟨_, _, pieceAt_digits hd _, ?_⟩
      rw [List.takeWhile_append_of_pos hdigits, List.length_cons, List.length_cons,
        List.length_append]
      exact Nat.succ_le_succ (Nat.le_add_right _ _)
  | @quoted items hitems =>
      obtain ⟨rfl, after, rfl⟩ := List.cons_prefix_cons.1 hpre
      exact ⟨_, _, pieceAt_quoted (by simpa using hitems.stringBody after), Nat.le_refl _⟩
  | @operator d hd =>
      obtain ⟨rfl, after, rfl⟩ := List.cons_prefix_cons.1 hpre
      exact ⟨_, _, pieceAt_operator hd after, Nat.le_refl _⟩
  | assign =>
      obtain ⟨rfl, -⟩ := List.cons_prefix_cons.1 hpre
      by_cases heq : rest.head? = some '='
      · obtain ⟨tail, rfl⟩ := List.head?_eq_some_iff.1 heq
        exact hone (pieceAt_operator (.inl rfl) tail) rfl
      · exact hone (pieceAt_assign heq) rfl
  | @punctuation d k hk =>
      obtain ⟨rfl, -⟩ := List.cons_prefix_cons.1 hpre
      exact hone (pieceAt_punctuation hk rest) rfl

/-- Scanning takes no lexeme where a longer one begins. -/
theorem Reads.longest {input text after : List Char} {k : TokenKind}
    (h : Reads input (some k) text after) : Longest input k text := by
  refine ⟨h.lexeme, ⟨after, h.append.symm⟩, fun k' text' hlexeme hpre => ?_⟩
  cases h with
  | piece hpiece hrest =>
      obtain ⟨k₁, text₁, hpiece₁, hlen⟩ := hlexeme.exists_piece hpre
      rw [hpiece] at hpiece₁
      cases hpiece₁
      exact hlen

/-- The class of a lexeme is determined by its text. -/
theorem Lexeme.kind_unique {k k' : TokenKind} {text : List Char} (h : Lexeme k text)
    (h' : Lexeme k' text) : k = k' := by
  have hreads := h.reads delimited_nil
  have hreads' := h'.reads delimited_nil
  rw [List.append_nil] at hreads hreads'
  obtain ⟨hpiece, -⟩ := hreads
  have hpiece' := hreads'.pieceAt_eq
  rw [hpiece] at hpiece'
  cases hpiece'
  rfl

theorem Lexeme.exists_cons {k : TokenKind} {text : List Char} (h : Lexeme k text) :
    ∃ c tail, text = c :: tail := by
  have hreads := h.reads delimited_nil
  generalize text ++ [] = input at hreads
  cases hreads with
  | piece => exact ⟨_, _, rfl⟩

/-- The longest lexeme is the one that scanning takes. -/
theorem Longest.reads {text rest : List Char} {k : TokenKind} (h : Longest (text ++ rest) k text) :
    Reads (text ++ rest) (some k) text rest := by
  obtain ⟨c, tail, rfl⟩ := h.lexeme.exists_cons
  obtain ⟨k', text', hpiece, -⟩ := h.lexeme.exists_piece h.begins
  obtain ⟨after, hreads⟩ : ∃ after, Reads (c :: tail ++ rest) (some k') text' after :=
    exists_reads hpiece
  have hlongest := hreads.longest
  -- Both are longest, so that they are one and the same stretch of the text.
  obtain rfl : c :: tail = text' := by
    have hle := h.longest k' text' hlongest.lexeme hlongest.begins
    have hge := hlongest.longest k _ h.lexeme h.begins
    exact (List.prefix_of_prefix_length_le h.begins hlongest.begins hge).eq_of_length
      (Nat.le_antisymm hge hle)
  obtain rfl := h.lexeme.kind_unique hlongest.lexeme
  have hafter : rest = after := List.append_cancel_left hreads.append
  rw [hafter] at hreads ⊢
  exact hreads

/-! ## Splits -/

/-- A text behind `before` is a row of lexemes, each the longest one at the end of a gap, and a last
gap. The tokens are the lexemes at their places and the end of the input. -/
inductive Splits : List Char → List Char → List (Token Position) → Prop
  | ending {before gap : List Char} (hgap : Gap gap []) :
      Splits before gap [⟨.eof, "", .behind (before ++ gap)⟩]
  | token {before gap text rest : List Char} {k : TokenKind} {tokens : List (Token Position)}
      (hgap : Gap gap (text ++ rest)) (htext : Longest (text ++ rest) k text)
      (h : Splits (before ++ gap ++ text) rest tokens) :
      Splits before (gap ++ (text ++ rest))
        (⟨k, String.ofList text, .behind (before ++ gap)⟩ :: tokens)

theorem Gap.scan_eq {gap rest : List Char} (h : Gap gap rest) (before : List Char) :
    scan 0 (Position.behind before).wrapped (gap ++ rest) =
      scan 0 (Position.behind (before ++ gap)).wrapped rest := by
  induction h generalizing before with
  | nil => simp
  | cons hpiece h ih =>
      rw [List.append_assoc, hpiece.reads.scan_eq, Position.advance_behind, ih,
        List.append_assoc]

theorem Splits.scan_eq {before text : List Char} {tokens : List (Token Position)}
    (h : Splits before text tokens) :
    scan 0 (Position.behind before).wrapped text = .ok (tokens.map (Token.map .wrapped)) := by
  induction h with
  | @ending before gap hgap =>
      have hscan := hgap.scan_eq before
      rw [List.append_nil] at hscan
      rw [hscan]
      rfl
  | token hgap htext h ih =>
      rw [hgap.scan_eq, htext.reads.scan_eq, Position.advance_behind, ih]
      rfl

theorem Splits.skip {before piece text : List Char} {tokens : List (Token Position)}
    (hpiece : Skipped piece text) (h : Splits (before ++ piece) text tokens) :
    Splits before (piece ++ text) tokens := by
  cases h with
  | @ending _ gap hgap =>
      rw [List.append_assoc]
      exact .ending (.cons (by simpa using hpiece) hgap)
  | @token _ gap _ _ _ _ hgap htext h =>
      rw [List.append_assoc before piece gap] at h ⊢
      rw [← List.append_assoc piece]
      exact .token (.cons hpiece hgap) htext h

/-- What is scanned is split, and the places are those of the split as far as 32 bits hold them. -/
theorem exists_splits_of_scan {before text : List Char} {tokens : List (Token Position)}
    (h : scan 0 (Position.behind before).wrapped text = .ok tokens) :
    ∃ places, Splits before text places ∧ tokens = places.map (Token.map .wrapped) := by
  -- on the length of the text, because a piece takes several characters at once
  induction hn : text.length using Nat.strong_induction_on generalizing before text tokens with
  | _ n ih =>
      subst hn
      cases text with
      | nil =>
          obtain rfl := Except.ok.inj h
          have hending : Splits before [] _ := .ending (.nil [])
          rw [List.append_nil] at hending
          exact ⟨_, hending, rfl⟩
      | cons c rest =>
          cases hpiece : pieceAt c rest with
          | error fault =>
              unfold scan at h
              rw [hpiece] at h
              cases h
          | ok piece =>
              obtain ⟨kind, text⟩ := piece
              obtain ⟨after, hreads⟩ : ∃ after, Reads (c :: rest) kind text after :=
                exists_reads hpiece
              rw [hreads.scan_eq, Position.advance_behind] at h
              cases kind with
              | none =>
                  obtain ⟨places, hplaces, rfl⟩ := ih _ hreads.length_lt h rfl
                  rw [hreads.append]
                  exact ⟨places, .skip hreads.skipped hplaces, rfl⟩
              | some k =>
                  obtain ⟨tokens, htokens, rfl⟩ := map_eq_ok.1 h
                  obtain ⟨places, hplaces, rfl⟩ := ih _ hreads.length_lt htokens rfl
                  have hlongest := hreads.longest
                  rw [hreads.append] at hlongest ⊢
                  have htoken : Splits before ([] ++ (text ++ after)) _ :=
                    .token (.nil _) hlongest (by rwa [List.append_nil])
                  rw [List.append_nil] at htoken
                  exact ⟨_, htoken, rfl⟩

theorem Splits.exists_behind {before text : List Char} {tokens : List (Token Position)}
    (h : Splits before text tokens) :
    ∀ t ∈ tokens, ∃ seen, t.pos = .behind seen ∧ seen <+: before ++ text := by
  induction h with
  | @ending before gap hgap =>
      rintro t ht
      obtain rfl := List.mem_singleton.1 ht
      exact ⟨before ++ gap, rfl, List.prefix_rfl⟩
  | @token before gap text rest k tokens hgap htext h ih =>
      refine List.forall_mem_cons.2 ⟨⟨before ++ gap, rfl, ⟨text ++ rest, by simp⟩⟩, ?_⟩
      simpa using ih

/-- In a text whose places fit, nothing of them is lost. -/
theorem Splits.map_wrapped {before text : List Char} {tokens : List (Token Position)}
    (h : Splits before text tokens) (hfit : Position.Fit (before ++ text)) :
    tokens.map (Token.map .wrapped) = tokens := by
  refine (List.map_congr_left fun t ht => ?_).trans (List.map_id tokens)
  obtain ⟨seen, hpos, hseen⟩ := h.exists_behind t ht
  rw [Token.map, hpos, hfit.wrapped_behind hseen, ← hpos]
  rfl

end Lexer

theorem tokenize_eq_ok_iff {source : String} {tokens : List (Token Position)} :
    tokenize source = .ok tokens ↔
      ∃ places, Lexer.Splits [] source.toList places ∧
        tokens = places.map (Token.map .wrapped) := by
  rw [tokenize, Position.start_eq]
  constructor
  · exact Lexer.exists_splits_of_scan
  · rintro ⟨places, hplaces, rfl⟩
    exact hplaces.scan_eq

theorem splits_of_tokenize {source : String} {tokens : List (Token Position)}
    (hfit : Position.Fit source.toList) (h : tokenize source = .ok tokens) :
    Lexer.Splits [] source.toList tokens := by
  obtain ⟨places, hplaces, rfl⟩ := tokenize_eq_ok_iff.1 h
  rwa [hplaces.map_wrapped hfit]

/-- Scanning succeeds if and only if the text splits into gaps and longest lexemes, and then gives
the lexemes with what 32 bits hold of their places. These are the places themselves in a text that
is not too long. -/
theorem tokenize_eq_ok_iff_splits (source : String) (tokens : List (Token Position)) :
    (tokenize source = .ok tokens ↔
      ∃ places, Lexer.Splits [] source.toList places ∧
        tokens = places.map (Token.map .wrapped)) ∧
    (source.length < UInt32.size - 1 →
      (tokenize source = .ok tokens ↔ Lexer.Splits [] source.toList tokens) ∧
      (tokenize source = .ok tokens →
        ∀ t ∈ tokens, t.pos.line < UInt32.size ∧ t.pos.column < UInt32.size)) := by
  refine ⟨tokenize_eq_ok_iff, fun hlength => ?_⟩
  have hfit := Position.fit_of_length hlength
  refine ⟨⟨splits_of_tokenize hfit, fun h => ?_⟩, fun htokens t ht => ?_⟩
  · exact tokenize_eq_ok_iff.2 ⟨tokens, h, (h.map_wrapped hfit).symm⟩
  · obtain ⟨seen, hpos, hseen⟩ := (splits_of_tokenize hfit htokens).exists_behind t ht
    rw [hpos]
    exact hfit seen hseen

/-- Comments, an escaped quote, a keyword with its parenthesis and characters of several bytes. -/
theorem splits_commentSample :
    ("x/*é*/==\"\\\"é\" // ü\nprint(12".length < UInt32.size - 1) ∧
      Lexer.Splits [] "x/*é*/==\"\\\"é\" // ü\nprint(12".toList
        [⟨.ident, "x", ⟨1, 1, 0⟩⟩, ⟨.binOp, "==", ⟨1, 7, 7⟩⟩, ⟨.str, "\"\\\"é\"", ⟨1, 9, 9⟩⟩,
          ⟨.print, "print(", ⟨2, 1, 22⟩⟩, ⟨.str, "12", ⟨2, 7, 28⟩⟩, ⟨.eof, "", ⟨2, 9, 30⟩⟩] := by
  have hlength : "x/*é*/==\"\\\"é\" // ü\nprint(12".length < UInt32.size - 1 := by decide
  refine ⟨hlength, ((tokenize_eq_ok_iff_splits _ _).2 hlength).1.1 ?_⟩
  decide +kernel

end ActorLang
