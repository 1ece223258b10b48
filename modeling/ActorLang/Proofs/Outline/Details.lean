import ActorLang.Proofs.Outline.Lines
import ActorLang.Proofs.Printer.Text

/-!
# What the lines of an outline show

Names are words, and each of them ends where its line goes on with another character. A line
therefore determines the names and lists of names that it shows, and all of them are on that line.
-/

namespace ActorLang

open Leaf Lexer

variable {P : Type}

/-! ## Names and lists of names -/

namespace Lexer

/-- The name of a variable or a type is a word. -/
theorem IsLexeme.isWord {k : TokenKind} {x : String} (hk : k = .ident ∨ k = .typeName)
    (h : IsLexeme k x) : isWord x.toList = true := by
  rw [isLexeme_iff] at h
  generalize x.toList = text at h
  cases h with
  | keyword h =>
      have hkeywords : ∀ k ∈ punctuatedKeywords, ¬ (k.2 = .ident ∨ k.2 = .typeName) := by decide
      exact absurd hk (hkeywords _ h)
  | word hc h => simpa [Lexer.isWord, hc, isWordChar_iff.2 (.inl hc)] using h
  | punctuation h =>
      unfold punctuationKind? at h
      split at h
      all_goals
        cases h
        try simp at hk
  | digits | quoted | operator | assign => simp at hk

theorem all_of_isWord {x : String} (h : isWord x.toList = true) :
    ∀ c ∈ x.toList, isWordChar c = true :=
  List.all_eq_true.1 (Bool.and_eq_true_iff.1 h).2

/-- A word is on one line. -/
theorem line_of_isWord {x : String} (h : isWord x.toList = true) : '\n' ∉ x.toList := by
  intro hmem
  have hword := all_of_isWord h _ hmem
  revert hword
  decide

/-- A text goes on where no word does. -/
theorem wordEnds_append {x : String} (h : x.toList.head?.any (!isWordChar ·) = true) (y : String) :
    WordEnds (x ++ y).toList := by
  obtain ⟨c, hc, hword⟩ := (Option.any_eq_true _ _).1 h
  obtain ⟨text, htext⟩ := List.head?_eq_some_iff.1 hc
  intro d hd
  rw [String.toList_append, htext] at hd
  obtain rfl : c = d := by simpa using hd
  simpa using hword

/-- Two texts that are equal begin with the same word. -/
theorem word_append_inj {x y u v : String} (hx : isWord x.toList = true)
    (hy : isWord y.toList = true) (hu : WordEnds u.toList) (hv : WordEnds v.toList)
    (h : x ++ u = y ++ v) : x = y ∧ u = v := by
  have hlists : x.toList ++ u.toList = y.toList ++ v.toList := by
    simpa using congrArg String.toList h
  obtain ⟨hword, hrest⟩ := append_inj_of_ends (all_of_isWord hx) (all_of_isWord hy) hu hv hlists
  exact ⟨String.toList_injective hword, String.toList_injective hrest⟩

/-- Two texts that begin with a word and the same separator. -/
theorem word_inj {x y u v sep : String} (hx : isWord x.toList = true) (hy : isWord y.toList = true)
    (hsep : sep.toList.head?.any (!isWordChar ·) = true) (h : x ++ sep ++ u = y ++ sep ++ v) :
    x = y ∧ u = v := by
  rw [String.append_assoc, String.append_assoc] at h
  obtain ⟨hword, hrest⟩ :=
    word_append_inj hx hy (wordEnds_append hsep u) (wordEnds_append hsep v) h
  exact ⟨hword, (String.append_right_inj _).1 hrest⟩

end Lexer

/-- A list of texts is its first text, and a comma with the other ones if there are some. -/
theorem commaList_cons (x : String) (xs : List String) : ∃ u, commaList (x :: xs) = x ++ u ∧
    WordEnds u.toList ∧ (u = "" ∧ xs = [] ∨ u = ", " ++ commaList xs ∧ xs ≠ []) := by
  cases xs with
  | nil => exact ⟨"", by simp [commaList], by simp [WordEnds], .inl ⟨rfl, rfl⟩⟩
  | cons y ys =>
      refine ⟨", " ++ commaList (y :: ys), ?_, wordEnds_append (by decide) _, .inr ⟨rfl, by simp⟩⟩
      rw [commaList, String.intercalate_cons_cons, String.append_assoc]
      rfl

/-- Words have neither commas nor blanks in them, so that a list of words can be cut again. -/
theorem commaList_inj {xs ys : List String} (hx : ∀ x ∈ xs, isWord x.toList = true)
    (hy : ∀ y ∈ ys, isWord y.toList = true) (h : commaList xs = commaList ys) : xs = ys := by
  have hempty : ∀ {y : String} {ys : List String}, isWord y.toList = true →
      commaList [] ≠ commaList (y :: ys) := by
    intro y ys hword heq
    obtain ⟨u, hu, -⟩ := commaList_cons y ys
    have hnil : y.toList = [] := by simp_all [commaList]
    rw [hnil] at hword
    cases hword
  induction xs generalizing ys with
  | nil =>
      cases ys with
      | nil => rfl
      | cons y ys => exact absurd h (hempty (hy y List.mem_cons_self))
  | cons x xs ih =>
      cases ys with
      | nil => exact absurd h.symm (hempty (hx x List.mem_cons_self))
      | cons y ys =>
          obtain ⟨hx, hxs⟩ := List.forall_mem_cons.1 hx
          obtain ⟨hy, hys⟩ := List.forall_mem_cons.1 hy
          obtain ⟨u, hu, hends, hlast⟩ := commaList_cons x xs
          obtain ⟨v, hv, hends', hlast'⟩ := commaList_cons y ys
          rw [hu, hv] at h
          obtain ⟨rfl, rfl⟩ := word_append_inj hx hy hends hends' h
          rcases hlast with ⟨rfl, rfl⟩ | ⟨hu, hne⟩
          · rcases hlast' with ⟨-, rfl⟩ | ⟨hv, -⟩
            · rfl
            · simp at hv
          · rcases hlast' with ⟨rfl, -⟩ | ⟨hv, -⟩
            · simp at hu
            · rw [ih hxs hys ((String.append_right_inj _).1 (hu.symm.trans hv))]

theorem line_commaList {xs : List String} (h : ∀ x ∈ xs, '\n' ∉ x.toList) :
    '\n' ∉ (commaList xs).toList := by
  induction xs with
  | nil => simp [commaList]
  | cons x xs ih =>
      obtain ⟨hx, hxs⟩ := List.forall_mem_cons.1 h
      obtain ⟨u, hu, -, ⟨rfl, -⟩ | ⟨rfl, -⟩⟩ := commaList_cons x xs
      · simpa [hu] using hx
      · simp [hu, hx, ih hxs]

theorem Ident.isWord_name {id : Ident P} (h : id.leaf.Lexical) : isWord id.name.toList = true :=
  (h rfl id.name rfl).isWord (.inl rfl)

theorem TypeIdent.isWord_name {type : TypeIdent P} (h : type.leaf.Lexical) :
    isWord type.name.toList = true :=
  (h rfl type.name rfl).isWord (.inr rfl)

theorem Ident.isWord_quoted {id : Ident P} (h : ∀ l ∈ id.quotedLeaves, l.Lexical) :
    isWord id.name.toList = true :=
  Ident.isWord_name (h _ (by simp [Ident.quotedLeaves]))

theorem Ident.isWord_row {ids : List (Ident P)} (h : ∀ l ∈ Ident.row ids, l.Lexical) :
    ∀ x ∈ ids.map Ident.name, isWord x.toList = true := by
  intro x hx
  obtain ⟨id, hid, rfl⟩ := List.mem_map.1 hx
  exact Ident.isWord_name ((forall_mem_commaRow (lexical_mark _)).1 h id hid _ (by simp))

theorem isWord_verdicts (verdicts : List Verdict) :
    ∀ x ∈ verdicts.map Verdict.text, isWord x.toList = true := by
  intro x hx
  obtain ⟨v, -, rfl⟩ := List.mem_map.1 hx
  cases v <;> decide

theorem Verdict.text_injective : Function.Injective Verdict.text := fun v w h =>
  Option.some.inj (by rw [← ofText?_text v, h, ofText?_text w])

theorem BinOp.text_injective : Function.Injective BinOp.text := fun o p h =>
  Option.some.inj (by rw [← ofText?_text o, h, ofText?_text p])

theorem Ident.name_injective : Function.Injective (Ident.name : Ident Unit → String) := by
  rintro ⟨x, _⟩ ⟨y, _⟩ rfl
  rfl

theorem TypeIdent.name_injective :
    Function.Injective (TypeIdent.name : TypeIdent Unit → String) := by
  rintro ⟨x, _⟩ ⟨y, _⟩ rfl
  rfl

/-! ## What lines show -/

theorem Ident.quoted_inj {x y : Ident Unit} (h : x.quoted = y.quoted) : x = y := by
  unfold Ident.quoted at h
  rw [String.append_left_inj, String.append_right_inj] at h
  exact Ident.name_injective h

/-- A quoted name ends with its closing quote. -/
theorem Ident.quoted_append_inj {x y : Ident Unit} {u v : String}
    (hx : ∀ l ∈ x.quotedLeaves, l.Lexical) (hy : ∀ l ∈ y.quotedLeaves, l.Lexical)
    (h : x.quoted ++ u = y.quoted ++ v) : x = y ∧ u = v := by
  have hends : ∀ w, WordEnds ("'" ++ w).toList := wordEnds_append (by decide)
  simp only [Ident.quoted, String.append_assoc, String.append_right_inj] at h
  obtain ⟨hname, hrest⟩ := word_append_inj (Ident.isWord_quoted hx) (Ident.isWord_quoted hy)
    (hends u) (hends v) h
  exact ⟨Ident.name_injective hname, (String.append_right_inj _).1 hrest⟩

theorem TypeIdent.name_ne_quoted {type : TypeIdent Unit} {id : Ident Unit}
    (h : type.leaf.Lexical) : type.name ≠ id.quoted := by
  intro heq
  have hquote : isWordChar '\x27' = true :=
    all_of_isWord (TypeIdent.isWord_name h) _ (by simp [heq, Ident.quoted])
  revert hquote
  decide

theorem line_quoted {id : Ident P} (h : ∀ l ∈ id.quotedLeaves, l.Lexical) :
    '\n' ∉ id.quoted.toList := by
  simp [Ident.quoted, line_of_isWord (Ident.isWord_quoted h)]

theorem outlineSignature_inj {x y : Ident Unit} {xs ys : List (Ident Unit)}
    (hx : x.leaf.Lexical) (hy : y.leaf.Lexical) (hxs : ∀ l ∈ Ident.row xs, l.Lexical)
    (hys : ∀ l ∈ Ident.row ys, l.Lexical) (h : outlineSignature x xs = outlineSignature y ys) :
    x = y ∧ xs = ys := by
  have hends : ∀ z, WordEnds (inParens z).toList := fun z => by
    rw [inParens, String.append_assoc]
    exact wordEnds_append (by decide) _
  obtain ⟨hname, hargs⟩ := word_append_inj (Ident.isWord_name hx) (Ident.isWord_name hy)
    (hends _) (hends _) h
  unfold inParens at hargs
  rw [String.append_left_inj, String.append_right_inj] at hargs
  have hnames := commaList_inj (Ident.isWord_row hxs) (Ident.isWord_row hys) hargs
  exact ⟨Ident.name_injective hname, List.map_injective_iff.2 Ident.name_injective hnames⟩

theorem line_outlineSignature {x : Ident P} {xs : List (Ident P)} (hx : x.leaf.Lexical)
    (hxs : ∀ l ∈ Ident.row xs, l.Lexical) : '\n' ∉ (outlineSignature x xs).toList := by
  have hlist := line_commaList fun z hz => line_of_isWord (Ident.isWord_row hxs z hz)
  simp [outlineSignature, inParens, line_of_isWord (Ident.isWord_name hx), hlist]

/-- The blank between a type and a source is the only one. -/
theorem outlineOrigin_inj {t u : TypeIdent Unit} {x y : Reference Unit} (ht : t.leaf.Lexical)
    (hu : u.leaf.Lexical) (h : outlineOrigin t x = outlineOrigin u y) :
    t = u ∧ x.outlineName = y.outlineName := by
  -- A type is followed by a blank and a name, or by nothing.
  have hform : ∀ (v : TypeIdent Unit) (z : Reference Unit), ∃ w, outlineOrigin v z = v.name ++ w ∧
      WordEnds w.toList ∧ w = z.outlineName.elim "" (" " ++ ·) := by
    intro v z
    unfold outlineOrigin
    cases z.outlineName with
    | none => exact ⟨"", by simp, by simp [WordEnds], rfl⟩
    | some name => exact ⟨_, String.append_assoc, wordEnds_append (by decide) _, rfl⟩
  obtain ⟨v, hv, hends, hvx⟩ := hform t x
  obtain ⟨w, hw, hends', hwy⟩ := hform u y
  rw [hv, hw] at h
  obtain ⟨hname, rfl⟩ := word_append_inj (TypeIdent.isWord_name ht) (TypeIdent.isWord_name hu)
    hends hends' h
  refine ⟨TypeIdent.name_injective hname, ?_⟩
  rw [hvx] at hwy
  revert hwy
  cases x.outlineName <;> cases y.outlineName <;> simp

theorem line_outlineOrigin {t : TypeIdent P} {x : Reference P} (ht : t.leaf.Lexical)
    (hx : x.leaf.Lexical) : '\n' ∉ (outlineOrigin t x).toList := by
  have hline := line_of_isWord (TypeIdent.isWord_name ht)
  cases x with
  | name id =>
      simp [outlineOrigin, Reference.outlineName, hline, line_of_isWord (Ident.isWord_name hx)]
  | literal lit => simpa [outlineOrigin, Reference.outlineName] using hline

theorem Node.legible_none {n : Node P} (h : n.outlineDetail = none) : n.label.Legible := by
  intro x hx
  cases hx.symm.trans h

theorem Node.legible_some {n : Node P} {x : String} (hk : (n.kind == .literal) = false)
    (hx : n.outlineDetail = some x) (h : '\n' ∉ x.toList) : n.label.Legible := by
  intro y hy
  obtain rfl : x = y := Option.some.inj (hx.symm.trans hy)
  exact ⟨fun hkind => absurd hkind (ne_of_beq_false hk), fun _ => h⟩

end ActorLang
