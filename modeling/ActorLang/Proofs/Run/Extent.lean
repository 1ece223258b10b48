import ActorLang.Proofs.Run.Blame

/-!
# How much of its input a parse reads

A parse that succeeds takes the tokens before the first end of input, and none behind it. Where the
end of input stands only at the end, this is the whole input. Where it also stands earlier, the
tokens behind it are left over: they are neither taken nor refused, and the result is the one that
is found without them.
-/

namespace ActorLang

variable {P α : Type}

namespace TokenStream

theorem eq_of_ofTokens [Inhabited P] {tokens : List (Token P)} {s : TokenStream P}
    (h : ofTokens tokens = .ok s) : tokens = s.ahead ++ [s.final] := by
  rcases List.eq_nil_or_concat tokens with rfl | ⟨body, last, rfl⟩
  · cases h
  · by_cases hlast : last.kind = .eof
    · simp only [ofTokens, List.concat_eq_append, List.getLast?_concat, hlast, dite_true,
        Except.ok.injEq] at h
      rw [← h, List.concat_eq_append, List.dropLast_concat]
    · simp [ofTokens, hlast] at h

/-- A stretch without an end of input is all that is taken before the first one. -/
theorem Takes.eq_front {s s' : TokenStream P} {us front back : List (Token P)} {e : Token P}
    (h : s.Takes us s') (hus : ∀ t ∈ us, t.kind ≠ .eof) (hend : s'.current.kind = .eof)
    (hs : s.ahead ++ [s.final] = front ++ e :: back) (he : e.kind = .eof)
    (hfront : ∀ t ∈ front, t.kind ≠ .eof) : us = front ∧ s'.current = e := by
  obtain ⟨rest, hrest⟩ := s'.ahead_append_final
  rw [h.ahead, ← h.final, List.append_assoc, hrest] at hs
  have hcut : ∀ {vs : List (Token P)} {t : Token P} {ts : List (Token P)}, t.kind = .eof →
      (∀ u ∈ vs, u.kind ≠ .eof) → (vs ++ t :: ts).takeWhile (·.kind != .eof) = vs := by
    intro vs t ts ht hvs
    rw [List.takeWhile_append_of_pos fun u hu => by simpa using hvs u hu]
    simp [ht]
  have hfronts : us = front := by
    rw [← hcut hend hus, hs, hcut he hfront]
  subst hfronts
  exact ⟨rfl, (List.cons.inj (List.append_cancel_left hs)).1⟩

end TokenStream

/-- What a parser takes of the tokens that it is given, where it reads `rule` and then expects the
end of the input. -/
structure ReadsToEnd [Inhabited P] (rule whole : Parser P α) (tokens : List (Token P)) : Prop where
  /-- A parse that succeeds takes the tokens before the first end of input. -/
  consumed : ∀ s a s', TokenStream.ofTokens tokens = .ok s → whole s = .ok (a, s') →
    ∃ taken rest, tokens = taken ++ s'.current :: rest ∧ s.Takes taken s' ∧
      s'.current.kind = .eof ∧ ∀ t ∈ taken, t.kind ≠ .eof
  /-- It takes all but the last token if and only if no other one is an end of input. -/
  exhausted : ∀ s a s', TokenStream.ofTokens tokens = .ok s → whole s = .ok (a, s') →
    (s'.ahead = [] ↔ Terminated tokens)
  /-- The tokens are refused if the rule leaves a token over at which the input does not end. -/
  refused : ∀ s a s', TokenStream.ofTokens tokens = .ok s → rule s = .ok (a, s') →
    s'.current.kind ≠ .eof → ∃ e, whole.run tokens = .error e
  /-- Tokens behind an earlier end of input are left over and change nothing. -/
  leftover : ∀ front e back last, tokens = front ++ e :: (back ++ [last]) → e.kind = .eof →
    last.kind = .eof → (∀ t ∈ front, t.kind ≠ .eof) →
    ∀ a, whole.run tokens = .ok a ↔ whole.run (front ++ [e]) = .ok a

namespace Parser

open TokenStream Form

theorem Outcome.passage {limits limits' : Limits} {f : Form} {more : List TokenKind} {w n : Nat}
    {p q : Parser P α} {s s' : TokenStream P} {a : α}
    (h : Outcome limits limits' f more w n p q s) (hp : p s = .ok (a, s')) :
    ∃ us, Passage f more w p q s a us s' := by
  cases h with
  | @passes b us s₁ h =>
      obtain ⟨rfl, rfl⟩ : b = a ∧ s₁ = s' := by simpa [h.eq_ok.1] using hp
      exact ⟨us, h⟩
  | refuses h => simp [h.eq_error.1] at hp
  | faults hp' => simp [hp'] at hp
  | tooDeep _ _ hp' => simp [hp'] at hp

section Spanning

variable {limits : Limits} {f : Form} {others : List TokenKind} {n : Nat} {rule : Parser P α}
  (hf : f.inner = true) (h : ∀ s, Outcome limits limits f others 0 n rule rule s)

include hf h

/-- What a rule has taken at the end of the input, it takes from every input that begins with the
same tokens up to there. -/
theorem takes_of_spanning {s s' : TokenStream P} {a : α}
    (hs : spanning others rule s = .ok (a, s')) :
    ∃ us, s.Takes us s' ∧ (∀ t ∈ us, t.kind ≠ .eof) ∧
      ∀ t u, t.Takes us u → u.current = s'.current → spanning others rule t = .ok (a, u) := by
  obtain ⟨hrule, hend⟩ := spanning_eq_ok.1 hs
  obtain ⟨us, hpass⟩ := (h s).passage hrule
  refine ⟨us, hpass.takes, fun t ht hk => ?_, fun t u htu hu => ?_⟩
  · exact hpass.derives.eof_not_mem hf (List.mem_map.2 ⟨t, ht, hk⟩)
  · have hlike : u.Like s' := ⟨by rw [hu], by rw [hu]⟩
    refine spanning_eq_ok.2 ⟨(hpass.settled t u htu hlike).1, ?_⟩
    rw [hu]
    exact hend

/-- Two inputs that agree up to their first end of input have the same results. -/
theorem spanning_of_front {s t : TokenStream P} {front back back' : List (Token P)} {e : Token P}
    (hs : s.ahead ++ [s.final] = front ++ e :: back)
    (ht : t.ahead ++ [t.final] = front ++ e :: back') (he : e.kind = .eof)
    (hfront : ∀ t ∈ front, t.kind ≠ .eof) {a : α}
    (ha : (spanning others rule s).map Prod.fst = .ok a) :
    (spanning others rule t).map Prod.fst = .ok a := by
  obtain ⟨⟨a, s'⟩, hspan, rfl⟩ := Lexer.map_eq_ok.1 ha
  obtain ⟨us, htakes, hus, hsettled⟩ := takes_of_spanning hf h hspan
  obtain ⟨rfl, hcurrent⟩ :=
    htakes.eq_front hus (spanning_eq_ok.1 hspan).2 hs he hfront
  obtain ⟨u, htu, hu⟩ := exists_takes ht
  rw [hsettled t u htu (hu.trans hcurrent.symm)]
  rfl

theorem readsToEnd_of_outcome [Inhabited P] (tokens : List (Token P)) :
    ReadsToEnd rule (spanning others rule) tokens := by
  refine ⟨fun s a s' hs hspan => ?_, fun s a s' hs hspan => ?_, fun s a s' hs hrule hmore => ?_,
    fun front e back last htokens he hlast hfront a => ?_⟩
  · obtain ⟨us, htakes, hus, -⟩ := takes_of_spanning hf h hspan
    obtain ⟨rest, hrest⟩ := s'.ahead_append_final
    refine ⟨us, rest, ?_, htakes, (spanning_eq_ok.1 hspan).2, hus⟩
    rw [eq_of_ofTokens hs, htakes.ahead, ← htakes.final, List.append_assoc, hrest]
  · obtain ⟨us, htakes, hus, -⟩ := takes_of_spanning hf h hspan
    have hend := (spanning_eq_ok.1 hspan).2
    have htokens : tokens = us ++ (s'.ahead ++ [s'.final]) := by
      rw [eq_of_ofTokens hs, htakes.ahead, ← htakes.final, List.append_assoc]
    constructor
    · intro hnil
      exact ⟨us, s'.final, by simpa [hnil] using htokens, s'.final_kind, hus⟩
    · rintro ⟨body, last, hbody, hlast, hall⟩
      cases hahead : s'.ahead with
      | nil => rfl
      | cons t ts =>
          -- The end of input at the cursor would stand before the last token.
          rw [htokens, ← List.append_assoc] at hbody
          have hmem : t ∈ body := by
            rw [← (List.append_inj' hbody rfl).1, hahead]
            simp
          exact absurd (by simpa [current, hahead] using hend) (hall t hmem)
  · rw [run_of_ofTokens hs]
    cases hspan : spanning others rule s with
    | error e => exact ⟨e, rfl⟩
    | ok r =>
        obtain ⟨b, s₁⟩ := r
        obtain ⟨hrule', hend⟩ := spanning_eq_ok.1 hspan
        obtain ⟨-, rfl⟩ : a = b ∧ s' = s₁ := by simpa [hrule] using hrule'
        exact absurd hend hmore
  · obtain ⟨s, hs, -, hrun⟩ := run_terminated (front ++ e :: back) hlast
    obtain ⟨t, ht, -, hrun'⟩ := run_terminated front he
    have hs : s.ahead ++ [s.final] = front ++ e :: (back ++ [last]) := by simpa using hs
    rw [htokens, show front ++ e :: (back ++ [last]) = front ++ e :: back ++ [last] by simp, hrun,
      hrun']
    exact ⟨spanning_of_front hf h hs ht he hfront, spanning_of_front hf h ht hs he hfront⟩

end Spanning

end Parser

/-- All parsers of tokens read their input up to the first end of input and no further. -/
theorem ofTokens_readsToEnd [Inhabited P] (limits : Limits) (tokens : List (Token P)) :
    ReadsToEnd (Parser.programOf (Parser.statement limits)) (Parser.program limits) tokens ∧
      ReadsToEnd (Parser.actor limits.depth limits.depth) (Parser.wholeActor limits) tokens ∧
      ReadsToEnd (Parser.expr limits.depth limits.depth) (Parser.wholeExpr limits) tokens := by
  have hdepth : limits.depth = limits.depth + 0 := rfl
  refine ⟨?_, ?_, ?_⟩
  · exact Parser.readsToEnd_of_outcome rfl (Parser.Outcome.programOf hdepth (.inl rfl)) tokens
  · exact Parser.readsToEnd_of_outcome rfl (fun s =>
      (Parser.Outcome.actor hdepth limits.depth s).mono (Nat.zero_le _) (Nat.le_refl _)) tokens
  · exact Parser.readsToEnd_of_outcome rfl (fun s =>
      (Parser.Outcome.expr hdepth limits.depth s).mono (Nat.zero_le _) (Nat.le_refl _)) tokens

def Token.leftoverSample : List (Token Nat) :=
  [⟨.ident, "a", 0⟩, ⟨.eof, "", 1⟩, ⟨.ident, "b", 2⟩, ⟨.eof, "", 3⟩]

theorem readsToEnd_leftoverSample :
    Actor.ofTokens {} Token.leftoverSample = .ok (.named ⟨"a", 0⟩) ∧
      Expr.ofTokens {} Token.leftoverSample = .ok (.named ⟨"a", 0⟩) ∧
      (∀ s a s', TokenStream.ofTokens Token.leftoverSample = .ok s →
        Parser.wholeActor {} s = .ok (a, s') → s'.ahead ≠ []) ∧
      ∀ s e s', TokenStream.ofTokens Token.leftoverSample = .ok s →
        Parser.wholeExpr {} s = .ok (e, s') → s'.ahead ≠ [] := by
  obtain ⟨-, hactor, hexpr⟩ := ofTokens_readsToEnd {} Token.leftoverSample
  have hfront : ∀ t ∈ [Token.mk .ident "a" 0], t.kind ≠ .eof := by decide
  have hleft : ¬ Terminated Token.leftoverSample := by
    rintro ⟨body, last, heq, -, hbody⟩
    have hlist : body = Token.leftoverSample.dropLast := by rw [heq, List.dropLast_concat]
    exact hbody ⟨.eof, "", 1⟩ (by rw [hlist]; decide) rfl
  refine ⟨?_, ?_, fun s a s' hs ha hnil => ?_, fun s e s' hs he hnil => ?_⟩
  · exact (hactor.leftover [⟨.ident, "a", 0⟩] ⟨.eof, "", 1⟩ [⟨.ident, "b", 2⟩] ⟨.eof, "", 3⟩ rfl rfl
      rfl hfront _).2 (by decide)
  · exact (hexpr.leftover [⟨.ident, "a", 0⟩] ⟨.eof, "", 1⟩ [⟨.ident, "b", 2⟩] ⟨.eof, "", 3⟩ rfl rfl
      rfl hfront _).2 (by decide)
  · exact hleft ((hactor.exhausted s a s' hs ha).1 hnil)
  · exact hleft ((hexpr.exhausted s e s' hs he).1 hnil)

end ActorLang
