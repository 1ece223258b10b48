import ActorLang.Proofs.Lexer.Split

/-!
# Places in a text

The place of a token is where its text stands in the source, and tokens stand one behind the other.
Scanning stops at a place of the source as well.
-/

namespace ActorLang

namespace Position

/-- One place is in front of another one, by bytes and also by line and column. -/
def Before (p q : Position) : Prop :=
  p.offset < q.offset ∧ (p.line < q.line ∨ p.line = q.line ∧ p.column < q.column)

/-- The source goes on with `x` at a place. The place is that of the text in front of it, and 32
bits hold its line and its column. -/
structure Shows (source x : String) (pos : Position) : Prop where
  behind : ∃ before after, source = before ++ x ++ after ∧ pos = .behind before.toList
  line_lt : pos.line < UInt32.size
  column_lt : pos.column < UInt32.size

theorem Before.trans {p q r : Position} (h : p.Before q) (h' : q.Before r) : p.Before r := by
  obtain ⟨hoffset, hline⟩ := h
  obtain ⟨hoffset', hline'⟩ := h'
  constructor
  · exact hoffset.trans hoffset'
  · omega

theorem before_behind_singleton (before : List Char) (c : Char) :
    (behind before).Before (.behind (before ++ [c])) := by
  have hbytes : (behind before).offset < (behind before).offset + c.utf8Size :=
    Nat.lt_add_of_pos_right c.utf8Size_pos
  rw [behind_concat]
  by_cases hc : c = '\n'
  · rw [if_pos hc]
    exact ⟨hbytes, .inl (Nat.lt_succ_self _)⟩
  · rw [if_neg hc]
    exact ⟨hbytes, .inr ⟨rfl, Nat.lt_succ_self _⟩⟩

theorem before_behind (before : List Char) {text : List Char} (hne : text ≠ []) :
    (behind before).Before (.behind (before ++ text)) := by
  induction text generalizing before with
  | nil => exact absurd rfl hne
  | cons c text ih =>
      have hstep := before_behind_singleton before c
      by_cases htext : text = []
      · rwa [htext]
      · rw [List.append_cons]
        exact hstep.trans (ih (before ++ [c]) htext)

theorem shows_of_append {source x : String} {before after : List Char}
    (hfit : Position.Fit source.toList) (h : source.toList = before ++ (x.toList ++ after)) :
    (Position.behind before).Shows source x := by
  obtain ⟨hline, hcolumn⟩ := hfit before ⟨_, h.symm⟩
  refine ⟨⟨String.ofList before, String.ofList after, ?_, ?_⟩, hline, hcolumn⟩
  · apply String.toList_injective
    simp [h]
  · rw [String.toList_ofList]

theorem Shows.place {source x : String} {pos : Position} (h : pos.Shows source x) :
    pos.Shows source "" := by
  obtain ⟨⟨before, after, hsource, hpos⟩, hline, hcolumn⟩ := h
  refine ⟨⟨before, x ++ after, ?_, hpos⟩, hline, hcolumn⟩
  rw [hsource, String.append_empty, String.append_assoc]

end Position

namespace Lexer

/-- A token stands in the text where its place says. -/
theorem Splits.exists_append {before text : List Char} {tokens : List (Token Position)}
    (h : Splits before text tokens) :
    ∀ t ∈ tokens, ∃ gap after, text = gap ++ (t.text.toList ++ after) ∧
      t.pos = .behind (before ++ gap) := by
  induction h with
  | @ending before gap hgap =>
      intro t ht
      obtain rfl := List.mem_singleton.1 ht
      exact ⟨gap, [], by simp, rfl⟩
  | @token before gap text rest k tokens hgap htext h ih =>
      refine List.forall_mem_cons.2 ⟨⟨gap, rest, by simp, rfl⟩, ?_⟩
      intro t ht
      obtain ⟨gap', after, rfl, hpos⟩ := ih t ht
      exact ⟨gap ++ text ++ gap', after, by simp, by simpa using hpos⟩

/-- Tokens stand one behind the other. -/
theorem Splits.pairwise {before text : List Char} {tokens : List (Token Position)}
    (h : Splits before text tokens) : tokens.Pairwise fun t u => t.pos.Before u.pos := by
  induction h with
  | ending => exact List.pairwise_singleton _ _
  | @token before gap text rest k tokens hgap htext h ih =>
      refine List.pairwise_cons.2 ⟨fun t ht => ?_, ih⟩
      obtain ⟨gap', after, -, hpos⟩ := h.exists_append t ht
      obtain ⟨c, tail, rfl⟩ := htext.lexeme.exists_cons
      rw [hpos, List.append_assoc (before ++ gap)]
      exact Position.before_behind _ (by simp)

/-- A refusal is at the place behind some part of the text. -/
theorem exists_behind_of_scan {skip : Nat} {before text : List Char} {e : ParseError Position}
    (h : scan skip (Position.behind before).wrapped text = .error e) :
    ∃ seen after, before ++ text = seen ++ after ∧ e.pos = (Position.behind seen).wrapped := by
  induction text generalizing skip before with
  | nil => cases h
  | cons c rest ih =>
      have hstep : (Position.behind before).wrapped.step c =
          (Position.behind (before ++ [c])).wrapped := Position.advance_behind before [c]
      have htail : ∀ {skip : Nat},
          scan skip ((Position.behind before).wrapped.step c) rest = .error e →
          ∃ seen after, before ++ c :: rest = seen ++ after ∧
            e.pos = (Position.behind seen).wrapped := by
        intro skip hrest
        rw [hstep] at hrest
        simpa using ih hrest
      unfold scan at h
      split at h
      · exact htail h
      · split at h
        · cases h
          exact ⟨before, c :: rest, rfl, rfl⟩
        · split at h
          · exact htail h
          · exact htail (map_eq_error.1 h)

/-- Negations and opening parentheses are written in one way only. -/
theorem Lexeme.eq_of_kind {k : TokenKind} {text : List Char} (h : Lexeme k text) :
    (k = .not → text = "NOT".toList) ∧ (k = .lparen → text = "(".toList) := by
  cases h with
  | keyword h =>
      have hkeywords : ∀ k ∈ punctuatedKeywords, k.2 ≠ .not ∧ k.2 ≠ .lparen := by decide
      obtain ⟨hnot, hparen⟩ := hkeywords _ h
      exact ⟨fun hk => absurd hk hnot, fun hk => absurd hk hparen⟩
  | @word c text hc h =>
      generalize hw : String.ofList (c :: text) = w
      have htext : c :: text = w.toList := by rw [← hw, String.toList_ofList]
      rw [htext]
      unfold wordKind
      split
      all_goals
        try split
        all_goals simp
  | punctuation h =>
      unfold punctuationKind? at h
      split at h
      all_goals
        cases h
        try simp
  | digits | quoted | operator | assign => simp

end Lexer

/-- A token stands in the source where its place says, as far as 32 bits can say it. -/
theorem exists_append_of_tokenize {source : String} {tokens : List (Token Position)}
    (h : tokenize source = .ok tokens) :
    ∀ t ∈ tokens, ∃ before after, source.toList = before ++ (t.text.toList ++ after) ∧
      t.pos = (Position.behind before).wrapped := by
  obtain ⟨places, hplaces, rfl⟩ := tokenize_eq_ok_iff.1 h
  intro t ht
  obtain ⟨u, hu, rfl⟩ := List.mem_map.1 ht
  obtain ⟨gap, after, hsource, hpos⟩ := hplaces.exists_append u hu
  exact ⟨gap, after, hsource, congrArg Position.wrapped hpos⟩

/-- Offsets are never too large, so that they tell the tokens apart. -/
theorem offset_pairwise_of_tokenize {source : String} {tokens : List (Token Position)}
    (h : tokenize source = .ok tokens) :
    tokens.Pairwise fun t u => t.pos.offset < u.pos.offset := by
  obtain ⟨places, hplaces, rfl⟩ := tokenize_eq_ok_iff.1 h
  exact List.pairwise_map.2 (hplaces.pairwise.imp And.left)

theorem shows_of_tokenize {source : String} {tokens : List (Token Position)}
    (hfit : Position.Fit source.toList) (h : tokenize source = .ok tokens) :
    ∀ t ∈ tokens, t.pos.Shows source t.text := by
  intro t ht
  obtain ⟨before, after, hsource, hpos⟩ := exists_append_of_tokenize h t ht
  rw [hpos, hfit.wrapped_behind ⟨_, hsource.symm⟩]
  exact Position.shows_of_append hfit hsource

theorem spelled_of_tokenize {source : String} {tokens : List (Token Position)}
    (h : tokenize source = .ok tokens) :
    ∀ t ∈ tokens, (t.kind = .not → t.text = "NOT") ∧ (t.kind = .lparen → t.text = "(") := by
  intro t ht
  obtain ⟨body, last, rfl, hlast, hbody⟩ := Lexer.scan_spec h
  rcases List.mem_append.1 ht with ht | ht
  · obtain ⟨hnot, hparen⟩ := (Lexer.isLexeme_iff.1 (hbody t ht).2).eq_of_kind
    exact ⟨fun hk => String.toList_injective (hnot hk),
      fun hk => String.toList_injective (hparen hk)⟩
  · rw [List.mem_singleton.1 ht, hlast]
    simp

end ActorLang
