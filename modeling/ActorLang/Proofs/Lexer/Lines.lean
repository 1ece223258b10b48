import ActorLang.Proofs.Lexer.Split

/-!
# Texts that are continued on a new line

No lexeme goes on behind a line feed, and a line comment ends there. A text that can be scanned is
therefore scanned to the same tokens when further lines follow it, and the scan goes on with the
next line as if nothing were before it. Conversely the lines behind can repair nothing, unless they
hold the end of an open string or comment.
-/

namespace ActorLang

/-- The place that a place in a text has when the text stands on the lines below another one. Its
line is raised modulo `2 ^ 32`, as lines are counted. -/
def Position.below (above : String) (p : Position) : Position :=
  ⟨(p.line + (1 + above.toList.count '\n')) % UInt32.size, p.column,
    p.offset + (above.utf8ByteSize + 1)⟩

theorem Position.below_step (above : String) (p : Position) (c : Char) :
    (p.step c).below above = (p.below above).step c := by
  unfold step
  split
  · simp only [below, mk.injEq, true_and, Nat.mod_add_mod]
    exact ⟨by rw [Nat.add_right_comm], Nat.add_right_comm ..⟩
  · simp only [below, mk.injEq, true_and]
    exact Nat.add_right_comm ..

theorem Position.below_start (above : String) :
    Position.start.below above = (Position.behind (above.toList ++ ['\n'])).wrapped := by
  have hline : '\n'.utf8Size = 1 := rfl
  rw [behind_concat, if_pos rfl, hline]
  simp [wrapped, behind, below, start, Nat.add_comm]

namespace Lexer

/-! ## Pieces in front of a line feed -/

theorem takeWhile_line {p : Char → Bool} (hp : p '\n' = false) (text more : List Char) :
    (text ++ '\n' :: more).takeWhile p = text.takeWhile p := by
  induction text with
  | nil => simp [hp]
  | cons c text ih => simp only [List.cons_append, List.takeWhile_cons, ih]

theorem isPrefixOf_line {word : List Char} (hword : '\n' ∉ word) (text more : List Char) :
    word.isPrefixOf (text ++ '\n' :: more) = word.isPrefixOf text := by
  induction word generalizing text with
  | nil => simp
  | cons c word ih =>
      obtain ⟨hc, hword⟩ := not_or.1 (mt List.mem_cons.2 hword)
      cases text with
      | nil => simp [List.isPrefixOf, Ne.symm hc]
      | cons d text => simp only [List.cons_append, List.isPrefixOf, ih hword]

theorem wordPiece_line (text more : List Char) :
    wordPiece (text ++ '\n' :: more) = wordPiece text := by
  have hkeywords : ∀ k ∈ punctuatedKeywords, '\n' ∉ k.1.toList := by decide
  have hfind : ∀ n : Nat, punctuatedKeywords.find? (fun k =>
      n < k.1.toList.length && k.1.toList.isPrefixOf (text ++ '\n' :: more)) =
      punctuatedKeywords.find? fun k => n < k.1.toList.length && k.1.toList.isPrefixOf text := by
    intro n
    rw [← List.head?_filter, ← List.head?_filter]
    refine congrArg List.head? (List.filter_congr fun k hk => ?_)
    rw [isPrefixOf_line (hkeywords k hk)]
  simp only [wordPiece, takeWhile_line (p := isWordChar) (by decide)]
  rw [hfind]

theorem pieceAt_lineComment (text : List Char) : pieceAt '/' ('/' :: text) =
    .ok ⟨none, '/' :: '/' :: text.takeWhile (· != '\n')⟩ := rfl

/-- A piece is read alike when its text ends and when a new line begins there. -/
theorem pieceAt_line {c : Char} {rest : List Char} {piece : Piece} (h : pieceAt c rest = .ok piece)
    (more : List Char) : pieceAt c (rest ++ '\n' :: more) = .ok piece := by
  cases begins_of_pieceAt h with
  | blank hc => exact pieceAt_blank hc _
  | word hc => rw [pieceAt_word hc, ← List.cons_append, wordPiece_line]
  | digits hc => rw [pieceAt_digits hc, takeWhile_line (by decide)]
  | lineComment hc hrest =>
      subst hc hrest
      rw [List.cons_append, pieceAt_lineComment, takeWhile_line (by decide)]
  | blockComment hc hrest hbody =>
      subst hc hrest
      obtain ⟨inner, after, rfl, rfl, hinner⟩ := exists_of_commentBody? hbody
      have happend := commentBody?_append hinner (after ++ '\n' :: more)
      rw [List.cons_append, pieceAt_comment, List.append_assoc, List.cons_append, List.cons_append,
        happend]
  | quoted hc hbody =>
      subst hc
      obtain ⟨items, after, hitems, rfl, rfl⟩ := items_of_stringBody hbody
      have hbody' := hitems.stringBody (after ++ '\n' :: more)
      exact pieceAt_quoted (by simpa using hbody')
  | operator hc hrest =>
      subst hrest
      exact pieceAt_operator hc _
  | assign hc =>
      subst hc
      apply pieceAt_assign
      intro heq
      cases rest with
      | nil => cases heq
      | cons d rest =>
          obtain rfl : d = '=' := by simpa using heq
          rw [pieceAt_operator (.inl rfl)] at h
          cases h
  | punctuation hc => exact pieceAt_punctuation hc _

/-- A character that a row has only in front of a place is in front of that place. -/
theorem exists_of_append_eq {c d : Char} {xs ys us vs : List Char}
    (h : xs ++ c :: ys = us ++ d :: vs) (hc : c ∉ d :: vs) : ∃ ws, us = xs ++ c :: ws := by
  rcases List.append_eq_append_iff.1 h with ⟨ws, rfl, hws⟩ | ⟨ws, rfl, hws⟩
  · cases ws with
    | nil =>
        rw [List.nil_append] at hws
        exact absurd (hws ▸ List.mem_cons_self) hc
    | cons e ws =>
        obtain ⟨rfl, -⟩ := List.cons.inj hws
        exact ⟨ws, rfl⟩
  · exact absurd (by simp [hws]) hc

/-- What a new line without quotes and slashes follows is a piece on its own. -/
theorem pieceAt_of_line {c : Char} {rest more : List Char} {piece : Piece} (hquote : '"' ∉ more)
    (hslash : '/' ∉ more) (h : pieceAt c (rest ++ '\n' :: more) = .ok piece) :
    pieceAt c rest = .ok piece := by
  generalize hinput : rest ++ '\n' :: more = input at h
  cases begins_of_pieceAt h with
  | blank hc => exact pieceAt_blank hc _
  | word hc => rw [pieceAt_word hc, ← hinput, ← List.cons_append, wordPiece_line]
  | digits hc => rw [pieceAt_digits hc, ← hinput, takeWhile_line (by decide)]
  | @lineComment text hc htext =>
      subst hc htext
      have hsplit : [] ++ '/' :: text = rest ++ '\n' :: more := hinput.symm
      obtain ⟨rest, rfl⟩ := exists_of_append_eq hsplit (by simpa using hslash)
      obtain rfl : rest ++ '\n' :: more = text := by simpa using hinput
      rw [takeWhile_line (by decide)]
      rfl
  | @blockComment text body hc htext hbody =>
      subst hc htext
      obtain ⟨inner, after, rfl, rfl, hinner⟩ := exists_of_commentBody? hbody
      have hsplit : ('*' :: (inner ++ ['*'])) ++ '/' :: after = rest ++ '\n' :: more := by
        simpa using hinput.symm
      obtain ⟨after, rfl⟩ := exists_of_append_eq hsplit (by simpa using hslash)
      have happend := commentBody?_append hinner after
      simp only [List.cons_append, List.append_assoc, List.nil_append, pieceAt_comment, happend]
  | quoted hc hbody =>
      subst hc
      obtain ⟨items, after, hitems, rfl, rfl⟩ := items_of_stringBody hbody
      obtain ⟨after, rfl⟩ := exists_of_append_eq hinput.symm (by simpa using hquote)
      exact pieceAt_quoted (hitems.stringBody after)
  | @operator text hc htext =>
      cases rest with
      | nil => simp [htext] at hinput
      | cons d rest =>
          obtain ⟨rfl, -⟩ : d = '=' ∧ rest ++ '\n' :: more = text := by simpa [htext] using hinput
          exact pieceAt_operator hc rest
  | assign hc =>
      subst hc
      apply pieceAt_assign
      intro heq
      obtain ⟨rest, rfl⟩ := List.head?_eq_some_iff.1 heq
      rw [← hinput, List.cons_append, pieceAt_operator (.inl rfl)] at h
      cases h
  | punctuation hc => exact pieceAt_punctuation hc _

/-! ## Scans that go on -/

theorem scan_stuck {c : Char} {rest : List Char} {fault : LexicalFault}
    (h : pieceAt c rest = .error fault) (pos : Position) :
    scan 0 pos (c :: rest) = .error ⟨.lexical fault.message, pos⟩ := by
  unfold scan
  rw [h]

/-- Induction along the pieces of a text, up to its end or to where no piece can be read. -/
theorem reads_induction {motive : List Char → Prop} (nil : motive [])
    (stuck : ∀ c rest fault, pieceAt c rest = .error fault → motive (c :: rest))
    (piece : ∀ input kind text after, Reads input kind text after → motive after → motive input)
    (text : List Char) : motive text := by
  induction hn : text.length using Nat.strong_induction_on generalizing text with
  | _ n ih =>
      subst hn
      cases text with
      | nil => exact nil
      | cons c rest =>
          cases hpiece : pieceAt c rest with
          | error fault => exact stuck c rest fault hpiece
          | ok p =>
              obtain ⟨after, hreads⟩ := exists_reads hpiece
              exact piece _ _ _ after hreads (ih _ hreads.length_lt after rfl)

theorem Reads.line {input text after : List Char} {kind : Option TokenKind}
    (h : Reads input kind text after) (more : List Char) :
    Reads (input ++ '\n' :: more) kind text (after ++ '\n' :: more) := by
  obtain ⟨h, rfl⟩ := h
  exact .piece (pieceAt_line h more) (List.append_assoc ..)

/-- Behind a text and a line feed a scan goes on as it would at that place. -/
theorem scan_line {text : List Char} {pos : Position} {tokens : List (Token Position)}
    (h : scan 0 pos text = .ok tokens) (more : List Char) :
    scan 0 pos (text ++ '\n' :: more) =
      (scan 0 (pos.advance (text ++ ['\n'])) more).map (tokens.dropLast ++ ·) := by
  induction text using reads_induction generalizing pos tokens with
  | nil =>
      obtain rfl := Except.ok.inj h
      have hfeed : Reads ('\n' :: more) none ['\n'] more := .piece (pieceAt_blank rfl more) rfl
      simp only [List.nil_append, hfeed.scan_eq]
      cases scan 0 (pos.advance ['\n']) more <;> rfl
  | stuck c rest fault hpiece =>
      rw [scan_stuck hpiece] at h
      cases h
  | piece input kind text after hreads ih =>
      have hplace : pos.advance (input ++ ['\n']) =
          (pos.advance text).advance (after ++ ['\n']) := by
        rw [hreads.append, List.append_assoc, Position.advance_append]
      rw [hreads.scan_eq] at h
      rw [(hreads.line more).scan_eq, hplace]
      cases kind with
      | none => exact ih h
      | some k =>
          obtain ⟨tokens, htokens, rfl⟩ := map_eq_ok.1 h
          obtain ⟨body, last, rfl, -⟩ := scan_spec htokens
          have hrest := ih htokens
          rw [List.dropLast_concat] at hrest
          simp only [hrest, ← List.cons_append, List.dropLast_concat]
          cases scan 0 ((pos.advance text).advance (after ++ ['\n'])) more <;> rfl

/-- A text can be scanned if it can be scanned in front of a line without quotes and slashes. -/
theorem exists_scan_of_line {text more : List Char} {pos : Position}
    {tokens : List (Token Position)} (hquote : '"' ∉ more) (hslash : '/' ∉ more)
    (h : scan 0 pos (text ++ '\n' :: more) = .ok tokens) :
    ∃ tokens', scan 0 pos text = .ok tokens' := by
  induction text using reads_induction generalizing pos tokens with
  | nil => exact ⟨_, rfl⟩
  | stuck c rest fault hpiece =>
      cases hline : pieceAt c (rest ++ '\n' :: more) with
      | error fault' =>
          rw [List.cons_append, scan_stuck hline] at h
          cases h
      | ok piece =>
          rw [pieceAt_of_line hquote hslash hline] at hpiece
          cases hpiece
  | piece input kind text after hreads ih =>
      rw [(hreads.line more).scan_eq] at h
      rw [hreads.scan_eq]
      cases kind with
      | none => exact ih h
      | some k =>
          obtain ⟨rest, hrest, -⟩ := map_eq_ok.1 h
          obtain ⟨tokens', htokens⟩ := ih hrest
          exact ⟨_, map_eq_ok.2 ⟨tokens', htokens, rfl⟩⟩

/-! ## Scans from another place -/

/-- A scan that begins at another place gives the same tokens. Of their places it keeps everything
that steps along a text keep. -/
theorem exists_scan_of_place {Q : Type} {f g : Position → Q}
    (hstep : ∀ p q c, f p = g q → f (p.step c) = g (q.step c)) {text : List Char}
    {p q : Position} {tokens : List (Token Position)} (hpq : f p = g q)
    (h : scan 0 p text = .ok tokens) :
    ∃ tokens', scan 0 q text = .ok tokens' ∧
      tokens'.map (Token.map g) = tokens.map (Token.map f) := by
  have hadvance : ∀ (text : List Char) (p q : Position), f p = g q →
      f (p.advance text) = g (q.advance text) := by
    intro text
    induction text with
    | nil => exact fun _ _ hpq => hpq
    | cons c text ih => exact fun p q hpq => ih _ _ (hstep p q c hpq)
  induction text using reads_induction generalizing p q tokens with
  | nil =>
      obtain rfl := Except.ok.inj h
      exact ⟨_, rfl, by simp [Token.map, hpq]⟩
  | stuck c rest fault hpiece =>
      rw [scan_stuck hpiece] at h
      cases h
  | piece input kind text after hreads ih =>
      rw [hreads.scan_eq] at h ⊢
      cases kind with
      | none => exact ih (hadvance text p q hpq) h
      | some k =>
          obtain ⟨rest, hrest, rfl⟩ := map_eq_ok.1 h
          obtain ⟨rest', hrest', hmap⟩ := ih (hadvance text p q hpq) hrest
          refine ⟨_, map_eq_ok.2 ⟨rest', hrest', rfl⟩, ?_⟩
          rw [List.map_cons, List.map_cons, hmap]
          simp [Token.map, hpq]

/-! ## Tokens apart from their places -/

/-- The tokens of a text apart from their places, if it can be scanned. -/
def shapes (text : List Char) : Option (List (Token Unit)) :=
  (scan 0 .start text).toOption.map (List.map Token.shape)

theorem shapes_eq (pos : Position) (text : List Char) :
    shapes text = (scan 0 pos text).toOption.map (List.map Token.shape) := by
  have hplace : ∀ {p q : Position} {tokens : List (Token Position)},
      scan 0 p text = .ok tokens → ∃ tokens', scan 0 q text = .ok tokens' ∧
        tokens'.map Token.shape = tokens.map Token.shape := fun h =>
    exists_scan_of_place (f := fun _ => ()) (g := fun _ => ()) (fun _ _ _ _ => rfl) rfl h
  unfold shapes
  cases h : scan 0 pos text with
  | error e =>
      cases hstart : scan 0 .start text with
      | error e' => rfl
      | ok tokens =>
          obtain ⟨_, hpos, -⟩ := hplace hstart
          rw [h] at hpos
          cases hpos
  | ok tokens =>
      obtain ⟨tokens', hstart, hshape⟩ := hplace h
      rw [hstart]
      exact congrArg some hshape

theorem Reads.shapes_eq {input text after : List Char} {kind : Option TokenKind}
    (h : Reads input kind text after) :
    shapes input =
      (shapes after).map ((kind.map fun k => ⟨k, String.ofList text, ()⟩).toList ++ ·) := by
  rw [Lexer.shapes_eq .start input, Lexer.shapes_eq (Position.start.advance text) after, h.scan_eq]
  cases kind with
  | none => cases scan 0 (Position.start.advance text) after <;> rfl
  | some k => cases scan 0 (Position.start.advance text) after <;> rfl

/-- In front of a line without quotes and slashes a text is read on its own. -/
theorem shapes_line (text : List Char) {more : List Char} (hquote : '"' ∉ more)
    (hslash : '/' ∉ more) : shapes (text ++ '\n' :: more) =
      (shapes text).bind fun ts => (shapes more).map (ts.dropLast ++ ·) := by
  rw [shapes_eq .start text, shapes_eq .start (text ++ '\n' :: more),
    shapes_eq (Position.start.advance (text ++ ['\n'])) more]
  cases h : scan 0 .start text with
  | error e =>
      cases hline : scan 0 .start (text ++ '\n' :: more) with
      | error e' => rfl
      | ok tokens =>
          obtain ⟨tokens', htokens⟩ := exists_scan_of_line hquote hslash hline
          rw [h] at htokens
          cases htokens
  | ok tokens =>
      rw [scan_line h more]
      cases scan 0 (Position.start.advance (text ++ ['\n'])) more with
      | error e => rfl
      | ok rest => simp [Except.map, Except.toOption, List.map_dropLast]

end Lexer

/-- The tokens of two texts, of which the second one begins on a new line. -/
theorem tokenize_lines {source source' : String} {tokens tokens' : List (Token Position)}
    (h : tokenize source = .ok tokens) (h' : tokenize source' = .ok tokens') :
    tokenize (source ++ "\n" ++ source') =
      .ok (tokens.dropLast ++ tokens'.map (Token.map (.below source))) := by
  have hplace : Position.start.advance (source.toList ++ ['\n']) = Position.start.below source := by
    rw [Position.advance_start, Position.below_start]
  obtain ⟨rest, hrest, hmap⟩ := Lexer.exists_scan_of_place (f := Position.below source) (g := id)
    (fun p q c hpq => by rw [Position.below_step, hpq]; rfl) rfl h'
  have hid : rest.map (Token.map id) = rest := List.map_id rest
  have hscan := Lexer.scan_line h source'.toList
  rw [hplace, show Lexer.scan 0 (Position.start.below source) source'.toList = .ok rest from hrest,
    ← hid, hmap] at hscan
  rw [tokenize, String.toList_append, String.toList_append, List.append_assoc]
  exact hscan

end ActorLang
