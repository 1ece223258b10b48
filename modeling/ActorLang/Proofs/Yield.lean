import ActorLang.Parser.Basic
import ActorLang.Proofs.Leaf

/-!
# What a stream yields

A stream yields a row of leaves and leaves another stream when its next tokens match the row one by
one. Success of a parser is always stated in this form, and the primitive parsers are settled here
once: none of the statements elsewhere opens a stream.
-/

namespace ActorLang

variable {P α β : Type}

namespace TokenStream

def Gives (s : TokenStream P) (l : Leaf P) (s' : TokenStream P) : Prop :=
  ∃ t rest, s.ahead = t :: rest ∧ l.Matches t ∧ s.next.2 = s'

/-- The tokens at the cursor match a row, and `s'` is the stream behind them. -/
def Yields (s : TokenStream P) : List (Leaf P) → TokenStream P → Prop
  | [], s' => s = s'
  | l :: ls, s' => ∃ s₁, s.Gives l s₁ ∧ s₁.Yields ls s'

@[simp] theorem yields_nil {s s' : TokenStream P} : s.Yields [] s' ↔ s = s' := Iff.rfl

theorem yields_cons {s s' : TokenStream P} {l : Leaf P} {ls : List (Leaf P)} :
    s.Yields (l :: ls) s' ↔ ∃ s₁, s.Gives l s₁ ∧ s₁.Yields ls s' := Iff.rfl

@[simp] theorem yields_singleton {s s' : TokenStream P} {l : Leaf P} :
    s.Yields [l] s' ↔ s.Gives l s' := by
  simp [yields_cons]

/-- A row can be cut at each of its leaves. -/
theorem yields_append {s s' : TokenStream P} {ls ms : List (Leaf P)} :
    s.Yields (ls ++ ms) s' ↔ ∃ s₁, s.Yields ls s₁ ∧ s₁.Yields ms s' := by
  induction ls generalizing s with
  | nil => simp
  | cons l ls ih =>
      simp only [List.cons_append, yields_cons, ih]
      constructor
      · rintro ⟨s₁, hl, s₂, hls, hms⟩
        exact ⟨s₂, ⟨s₁, hl, hls⟩, hms⟩
      · rintro ⟨s₂, ⟨s₁, hl, hls⟩, hms⟩
        exact ⟨s₁, hl, s₂, hls, hms⟩

theorem Yields.cons {s s₁ s' : TokenStream P} {l : Leaf P} {ls : List (Leaf P)}
    (h : s.Gives l s₁) (hs : s₁.Yields ls s') : s.Yields (l :: ls) s' :=
  ⟨s₁, h, hs⟩

theorem Yields.append {s s₁ s' : TokenStream P} {ls ms : List (Leaf P)}
    (h : s.Yields ls s₁) (hs : s₁.Yields ms s') : s.Yields (ls ++ ms) s' :=
  yields_append.2 ⟨s₁, h, hs⟩

theorem Gives.current {s s' : TokenStream P} {l : Leaf P} (h : s.Gives l s') :
    l.Matches s.current := by
  obtain ⟨t, rest, ha, hm, -⟩ := h
  simpa [TokenStream.current, ha] using hm

theorem Gives.current_kind {s s' : TokenStream P} {l : Leaf P} (h : s.Gives l s') :
    s.current.kind = l.kind :=
  h.current.kind

/-- What lies behind the cursor is at the cursor once a token is taken. -/
theorem Gives.kindAt_succ {s s' : TokenStream P} {l : Leaf P} (h : s.Gives l s') (n : Nat) :
    s.kindAt (n + 1) = s'.kindAt n := by
  obtain ⟨t, rest, ha, -, rfl⟩ := h
  simp [TokenStream.kindAt, TokenStream.next, ha]

theorem Gives.of_matches {s s' : TokenStream P} {l m : Leaf P} (h : s.Gives l s')
    (hm : ∀ t, l.Matches t → m.Matches t) : s.Gives m s' := by
  obtain ⟨t, rest, ha, hl, hs⟩ := h
  exact ⟨t, rest, ha, hm t hl, hs⟩

theorem Gives.mark {s s' : TokenStream P} {l : Leaf P} (h : s.Gives l s') :
    s.Gives (.mark l.kind) s' :=
  h.of_matches fun _ ht => Leaf.matches_mark.2 ht.kind

theorem Gives.key {s s' : TokenStream P} {k : TokenKind} {x : String} {pos : P}
    (h : s.Gives (.word k x pos) s') : s.Gives (.key k pos) s' :=
  h.of_matches fun _ ht => Leaf.matches_key.2 (by rw [Leaf.matches_word.1 ht]; exact ⟨rfl, rfl⟩)

/-- A token of a class other than the end of input can be taken. -/
theorem gives_next {s : TokenStream P} (h : s.current.kind ≠ .eof) :
    s.Gives (.word s.current.kind s.current.text s.current.pos) s.next.2 := by
  rcases hs : s.ahead with _ | ⟨t, rest⟩
  · exact absurd s.final_kind (by simpa [TokenStream.current, hs] using h)
  · exact ⟨t, rest, hs, by simp [TokenStream.current, hs], rfl⟩

theorem gives_mark {s s' : TokenStream P} {k : TokenKind} :
    s.Gives (.mark k) s' ↔ ∃ t : Token P, t.kind = k ∧ s.Gives (.word k t.text t.pos) s' := by
  constructor
  · rintro ⟨t, rest, ha, ht, hs⟩
    have hk := Leaf.matches_mark.1 ht
    exact ⟨t, hk, t, rest, ha, Leaf.matches_word.2 (by rw [← hk]), hs⟩
  · rintro ⟨t, -, h⟩
    exact h.mark

theorem gives_key {s s' : TokenStream P} {k : TokenKind} {pos : P} :
    s.Gives (.key k pos) s' ↔ ∃ x, s.Gives (.word k x pos) s' := by
  constructor
  · rintro ⟨t, rest, ha, ht, hs⟩
    obtain ⟨hk, hp⟩ := Leaf.matches_key.1 ht
    exact ⟨t.text, t, rest, ha, Leaf.matches_word.2 (by rw [← hk, ← hp]), hs⟩
  · rintro ⟨x, h⟩
    exact h.key

theorem yields_pin {s s' : TokenStream P} {pos : P} {ls : List (Leaf P)} (hls : ls ≠ []) :
    s.Yields (Leaf.pin pos ls) s' ↔ s.current.pos = pos ∧ s.Yields ls s' := by
  cases ls with
  | nil => exact absurd rfl hls
  | cons l ls =>
      simp only [Leaf.pin, yields_cons]
      constructor
      · rintro ⟨s₁, h, hs⟩
        refine ⟨(Leaf.matches_pinned.1 h.current).1, s₁, ?_, hs⟩
        exact h.of_matches fun t ht => (Leaf.matches_pinned.1 ht).2
      · rintro ⟨hpos, s₁, ⟨t, rest, ha, ht, hn⟩, hs⟩
        have htpos : t.pos = pos := by simpa [TokenStream.current, ha] using hpos
        exact ⟨s₁, ⟨t, rest, ha, Leaf.matches_pinned.2 ⟨htpos, ht⟩, hn⟩, hs⟩

/-- A row is matched by a stretch of the tokens ahead. -/
theorem Yields.ahead {s s' : TokenStream P} {ls : List (Leaf P)} (h : s.Yields ls s') :
    ∃ ts, s.ahead = ts ++ s'.ahead ∧ List.Forall₂ Leaf.Matches ls ts ∧ s'.final = s.final := by
  induction ls generalizing s with
  | nil =>
      cases yields_nil.1 h
      exact ⟨[], rfl, .nil, rfl⟩
  | cons l ls ih =>
      obtain ⟨s₁, ⟨t, rest, ha, ht, rfl⟩, hs⟩ := h
      obtain ⟨ts, hts, hm, hf⟩ := ih hs
      refine ⟨t :: ts, ?_, .cons ht hm, ?_⟩
      · rw [ahead_next, ha] at hts
        rw [ha, List.cons_append, ← hts]
        rfl
      · rw [hf]
        simp [TokenStream.next, ha]

/-- A stream gets shorter by the length of the row. -/
theorem Yields.length_ahead {s s' : TokenStream P} {ls : List (Leaf P)} (h : s.Yields ls s') :
    s.ahead.length = ls.length + s'.ahead.length := by
  obtain ⟨ts, ha, hm, -⟩ := h.ahead
  rw [ha, List.length_append, hm.length_eq]

/-- Tokens ahead that match a row are yielded. -/
theorem yields_of_ahead {s : TokenStream P} {ls : List (Leaf P)} {ts rest : List (Token P)}
    (ha : s.ahead = ts ++ rest) (hm : List.Forall₂ Leaf.Matches ls ts) :
    ∃ s', s.Yields ls s' ∧ s'.ahead = rest ∧ s'.final = s.final := by
  induction hm generalizing s with
  | nil => exact ⟨s, rfl, ha, rfl⟩
  | @cons l t ls ts hl _ ih =>
      have hn : s.next.2.ahead = ts ++ rest := by rw [ahead_next, ha]; rfl
      obtain ⟨s', hs', hrest, hf⟩ := ih hn
      refine ⟨s', ⟨s.next.2, ⟨t, ts ++ rest, ha, hl, rfl⟩, hs'⟩, hrest, ?_⟩
      rw [hf]
      simp [TokenStream.next, ha]

/-! ## Whole inputs -/

def Ends (s : TokenStream P) (ls : List (Leaf P)) : Prop :=
  List.Forall₂ Leaf.Matches ls (s.ahead ++ [s.final])

theorem ends_eof {s : TokenStream P} : s.Ends [.mark .eof] ↔ s.ahead = [] := by
  cases h : s.ahead with
  | nil => simp [Ends, h, s.final_kind]
  | cons t rest => simp [Ends, h]

theorem ends_append {s : TokenStream P} {ls ms : List (Leaf P)} (hms : ms ≠ []) :
    s.Ends (ls ++ ms) ↔ ∃ s', s.Yields ls s' ∧ s'.Ends ms := by
  constructor
  · intro h
    induction ls generalizing s with
    | nil => exact ⟨s, rfl, h⟩
    | cons l ls ih =>
        rcases ha : s.ahead with _ | ⟨t, rest⟩
        · -- The row is too long for the final token alone.
          have hlen := h.length_eq
          simp [ha, hms] at hlen
        · rw [Ends, ha] at h
          obtain ⟨hl, h⟩ := List.forall₂_cons.1 h
          have hnext : s.next.2.Ends (ls ++ ms) := by
            simpa [Ends, TokenStream.next, ha] using h
          obtain ⟨s', hy, hms⟩ := ih hnext
          exact ⟨s', ⟨_, ⟨t, rest, ha, hl, rfl⟩, hy⟩, hms⟩
  · rintro ⟨s', hy, h⟩
    obtain ⟨ts, ha, hm, hf⟩ := hy.ahead
    rw [Ends, ha, List.append_assoc, ← hf]
    exact List.rel_append hm h

/-- The first token of a stream gives the first leaf of a row its place. -/
theorem ends_pin {s : TokenStream P} {pos : P} {ls : List (Leaf P)} (hls : ls ≠ []) :
    s.Ends (Leaf.pin pos ls) ↔ s.current.pos = pos ∧ s.Ends ls := by
  obtain ⟨l, ls, rfl⟩ := List.exists_cons_of_ne_nil hls
  cases h : s.ahead with
  | nil => simp [Ends, h, Leaf.pin, Leaf.matches_pinned, TokenStream.current, and_assoc]
  | cons t rest => simp [Ends, h, Leaf.pin, Leaf.matches_pinned, TokenStream.current, and_assoc]

/-- The end of input stands nowhere but behind the tokens ahead. -/
def Closed (s : TokenStream P) : Prop :=
  ∀ t ∈ s.ahead, t.kind ≠ .eof

theorem Closed.yields {s s' : TokenStream P} {ls : List (Leaf P)} (hs : s.Closed)
    (h : s.Yields ls s') : s'.Closed := by
  obtain ⟨ts, ha, -, -⟩ := h.ahead
  intro t ht
  exact hs t (by simp [ha, ht])

theorem Closed.current_eq_eof {s : TokenStream P} (hs : s.Closed) :
    s.current.kind = .eof ↔ s.Ends [.mark .eof] := by
  rw [ends_eof]
  cases h : s.ahead with
  | nil => simp [TokenStream.current, h, s.final_kind]
  | cons t rest => simpa [TokenStream.current, h] using hs t (by simp [h])

end TokenStream

namespace Parser

open TokenStream

/-! ## Steps of a run -/

/-- Opens a sequence of parsers; no proof about a rule unfolds the monad. -/
theorem bind_eq_ok {p : Parser P α} {f : α → Parser P β} {s s' : TokenStream P} {b : β} :
    (p >>= f) s = .ok (b, s') ↔ ∃ s₁ a, p s = .ok (a, s₁) ∧ f a s₁ = .ok (b, s') := by
  cases h : p s with
  | error e => simp [bind, StateT.bind, Except.bind, h]
  | ok r =>
      obtain ⟨a, s₁⟩ := r
      simp [bind, StateT.bind, Except.bind, h]

theorem bind_of_eq_ok {p : Parser P α} {f : α → Parser P β} {s s₁ : TokenStream P} {a : α}
    (h : p s = .ok (a, s₁)) : (p >>= f) s = f a s₁ := by
  simp [bind, StateT.bind, Except.bind, h]

theorem map_eq_ok {p : Parser P α} {f : α → β} {s s' : TokenStream P} {b : β} :
    (f <$> p) s = .ok (b, s') ↔ ∃ a, p s = .ok (a, s') ∧ f a = b := by
  rw [← bind_pure_comp, bind_eq_ok]
  constructor
  · rintro ⟨s₁, a, h, he⟩
    obtain ⟨rfl, rfl⟩ : f a = b ∧ s₁ = s' := Prod.mk.inj (Except.ok.inj he)
    exact ⟨a, h, rfl⟩
  · rintro ⟨a, h, rfl⟩
    exact ⟨s', a, h, rfl⟩

@[simp] theorem pure_apply (a : α) (s : TokenStream P) : (pure a : Parser P α) s = .ok (a, s) := rfl

@[simp] theorem peek_bind (f : Token P → Parser P β) (s : TokenStream P) :
    (peek >>= f) s = f s.current s := rfl

@[simp] theorem nextIs_bind (k : TokenKind) (f : Bool → Parser P β) (s : TokenStream P) :
    (nextIs k >>= f) s = f (s.current.kind == k) s := rfl

@[simp] theorem aheadIs_bind (n : Nat) (k : TokenKind) (f : Bool → Parser P β)
    (s : TokenStream P) : (aheadIs n k >>= f) s = f (s.kindAt n == k) s := rfl

@[simp] theorem remaining_bind (f : Nat → Parser P β) (s : TokenStream P) :
    (remaining >>= f) s = f s.ahead.length s := rfl

@[simp] theorem unexpected_ne_ok (ks : List TokenKind) (s : TokenStream P)
    (r : α × TokenStream P) : unexpected ks s = .ok r ↔ False := by
  simp [unexpected]

@[simp] theorem fail_ne_ok (c : Cause) (s : TokenStream P) (r : α × TokenStream P) :
    fail c s = .ok r ↔ False := by
  simp [fail]

theorem expectOr_eq_ok {others : List TokenKind} {k : TokenKind} (hk : k ≠ .eof)
    {s s' : TokenStream P} {t : Token P} :
    expectOr others k s = .ok (t, s') ↔ t.kind = k ∧ s.Gives (.word k t.text t.pos) s' := by
  simp only [Stepwise.expectOr, nextIs_bind, beq_iff_eq]
  split
  case isTrue h =>
    have hg := gives_next (by simpa [h] using hk : s.current.kind ≠ .eof)
    constructor
    · intro ht
      have ht' : s.next = (t, s') := by simpa [take] using ht
      have hc : s.current = t := by rw [← fst_next, ht']
      rw [← hc, ← show s.next.2 = s' by rw [ht']]
      exact ⟨h, h ▸ hg⟩
    · rintro ⟨htk, hgt⟩
      have hc : s.current = ⟨k, t.text, t.pos⟩ := Leaf.matches_word.1 hgt.current
      obtain ⟨_, _, _, _, hs⟩ := hgt
      have hn : s.next = (t, s') := by
        rw [← hs]
        refine Prod.ext ?_ rfl
        rw [fst_next, hc, ← htk]
      simp [take, hn]
  case isFalse h =>
    simp only [unexpected_ne_ok, false_iff, not_and]
    intro _ hg
    exact h hg.current_kind

theorem expect_eq_ok {k : TokenKind} (hk : k ≠ .eof) {s s' : TokenStream P} {t : Token P} :
    expect k s = .ok (t, s') ↔ t.kind = k ∧ s.Gives (.word k t.text t.pos) s' :=
  expectOr_eq_ok hk

theorem expectOr_bind_eq_ok {others : List TokenKind} {k : TokenKind} (hk : k ≠ .eof)
    {f : Token P → Parser P β} {s s' : TokenStream P} {b : β}
    (h : (expectOr others k >>= f) s = .ok (b, s')) :
    ∃ s₁ t, s.Gives (.word k t.text t.pos) s₁ ∧ f t s₁ = .ok (b, s') := by
  obtain ⟨s₁, t, ht, h⟩ := bind_eq_ok.1 h
  exact ⟨s₁, t, ((expectOr_eq_ok hk).1 ht).2, h⟩

/-- A mark is taken whatever text and place it has. -/
theorem expectOr_bind_of_mark {others : List TokenKind} {k : TokenKind} {s s₁ : TokenStream P}
    (h : s.Gives (.mark k) s₁) (hk : k ≠ .eof) (p : Parser P β) :
    (expectOr others k >>= fun _ => p) s = p s₁ := by
  obtain ⟨t, ht⟩ := gives_mark.1 h
  exact bind_of_eq_ok ((expectOr_eq_ok hk).2 ht)

theorem expect_bind_of_mark {k : TokenKind} {s s₁ : TokenStream P}
    (h : s.Gives (.mark k) s₁) (hk : k ≠ .eof) (p : Parser P β) :
    (expect k >>= fun _ => p) s = p s₁ :=
  expectOr_bind_of_mark h hk p

theorem expect_of_key {k : TokenKind} {s s₁ : TokenStream P} {pos : P}
    (h : s.Gives (.key k pos) s₁) (hk : k ≠ .eof) :
    ∃ x, expect k s = .ok (⟨k, x, pos⟩, s₁) := by
  obtain ⟨x, hx⟩ := gives_key.1 h
  exact ⟨x, (expectOr_eq_ok (t := ⟨k, x, pos⟩) hk).2 ⟨rfl, hx⟩⟩

/-- Where the class of the next token is known, taking it is expecting it. -/
theorem take_eq_expect {s : TokenStream P} {k : TokenKind} (h : s.current.kind = k) :
    take s = expect k s := by
  simp [Stepwise.expect, Stepwise.expectOr, h]

theorem take_bind_eq_expect {s : TokenStream P} {k : TokenKind} (h : s.current.kind = k)
    (f : Token P → Parser P β) : (take >>= f) s = (expect k >>= f) s := by
  simp only [bind, StateT.bind, take_eq_expect h]

theorem take_bind_eq_ok {k : TokenKind} {f : Token P → Parser P β} {s s' : TokenStream P} {b : β}
    (hs : s.current.kind = k) (hk : k ≠ .eof) (h : (take >>= f) s = .ok (b, s')) :
    ∃ s₁ t, s.Gives (.word k t.text t.pos) s₁ ∧ f t s₁ = .ok (b, s') := by
  rw [take_bind_eq_expect hs] at h
  exact expectOr_bind_eq_ok hk h

theorem take_of_key {k : TokenKind} {s s₁ : TokenStream P} {pos : P}
    (h : s.Gives (.key k pos) s₁) (hk : k ≠ .eof) : ∃ x, take s = .ok (⟨k, x, pos⟩, s₁) := by
  rw [take_eq_expect h.current_kind]
  exact expect_of_key h hk

/-! ## Lists divided by commas -/

section CommaLists

variable {item : Parser P α} {f : α → List (Leaf P)} {stop : α → TokenKind → Prop}

/-- Where a list ends: no comma follows, and the last item may end before what follows. -/
def ListEnds (stop : α → TokenKind → Prop) (as : List α) (s : TokenStream P) : Prop :=
  s.current.kind ≠ .comma ∧ ∀ a ∈ as.getLast?, stop a s.current.kind

theorem noItems_eq_ok {s s' : TokenStream P} {as : List α} (hs : s.current.kind ≠ .comma) :
    (pure [] : Parser P (List α)) s = .ok (as, s') ↔
      s.Yields (as.flatMap fun a => .mark .comma :: f a) s' ∧ ListEnds stop as s' := by
  cases as with
  | nil =>
      simp only [pure_apply, List.flatMap_nil, yields_nil]
      constructor
      · intro h
        obtain rfl : s = s' := by simpa using h
        exact ⟨rfl, hs, by simp⟩
      · rintro ⟨rfl, -⟩
        rfl
  | cons a as =>
      simp only [pure_apply, List.flatMap_cons, List.cons_append]
      constructor
      · intro h
        simp at h
      · rintro ⟨⟨s₁, h, -⟩, -⟩
        exact absurd h.current_kind hs

/-- An item and the loop behind it, given what the loop does on streams no longer than this. -/
theorem itemThenRest_eq_ok
    (hitem : ∀ s a s', item s = .ok (a, s') ↔ s.Yields (f a) s' ∧ stop a s'.current.kind)
    (hcomma : ∀ a, stop a .comma) {rest : Parser P (List α)} {s s' : TokenStream P} {as : List α}
    (hrest : ∀ s₁ bs, s₁.ahead.length ≤ s.ahead.length → (rest s₁ = .ok (bs, s') ↔
      s₁.Yields (bs.flatMap fun a => .mark .comma :: f a) s' ∧ ListEnds stop bs s')) :
    (item >>= fun a => rest >>= fun bs => pure (a :: bs)) s = .ok (as, s') ↔
      as ≠ [] ∧ s.Yields (Leaf.commaRow f as) s' ∧ ListEnds stop as s' := by
  simp only [bind_eq_ok]
  constructor
  · rintro ⟨s₁, a, ha, s₂, bs, hbs, he⟩
    obtain ⟨rfl, rfl⟩ : a :: bs = as ∧ s₂ = s' := by simpa using he
    obtain ⟨hy, hstop⟩ := (hitem _ _ _).1 ha
    have hlen := hy.length_ahead
    obtain ⟨hyr, hnc, hlast⟩ := (hrest s₁ bs (by omega)).1 hbs
    refine ⟨by simp, hy.append hyr, hnc, ?_⟩
    cases bs with
    | nil =>
        obtain rfl : s₁ = s₂ := by simpa using hyr
        simpa using hstop
    | cons b bs => simpa using hlast
  · cases as with
    | nil => simp
    | cons a as =>
        rintro ⟨-, hy, hnc, hlast⟩
        obtain ⟨s₁, hya, hyr⟩ := yields_append.1 hy
        have hlen := hya.length_ahead
        have hstop : stop a s₁.current.kind := by
          cases as with
          | nil =>
              obtain rfl : s₁ = s' := by simpa using hyr
              simpa using hlast
          | cons b as =>
              obtain ⟨s₂, hb, -⟩ := hyr
              rw [hb.current_kind]
              exact hcomma a
        refine ⟨s₁, a, (hitem _ _ _).2 ⟨hya, hstop⟩, s', as, ?_, rfl⟩
        refine (hrest s₁ as (by omega)).2 ⟨hyr, hnc, fun b hb => hlast b ?_⟩
        cases as with
        | nil => simp at hb
        | cons c as => simpa using hb

/-- The loop behind the first item. -/
theorem itemsAfterComma_eq_ok
    (hitem : ∀ s a s', item s = .ok (a, s') ↔ s.Yields (f a) s' ∧ stop a s'.current.kind)
    (hcomma : ∀ a, stop a .comma) {n : Nat} {s s' : TokenStream P} {as : List α}
    (hn : s.ahead.length ≤ n) :
    itemsAfterComma item n s = .ok (as, s') ↔
      s.Yields (as.flatMap fun a => .mark .comma :: f a) s' ∧ ListEnds stop as s' := by
  induction n generalizing s as with
  | zero =>
      apply noItems_eq_ok
      have ha : s.ahead = [] := List.length_eq_zero_iff.1 (Nat.le_zero.1 hn)
      simp [TokenStream.current, ha, s.final_kind]
  | succ n ih =>
      simp only [Stepwise.itemsAfterComma, nextIs_bind, beq_iff_eq]
      split
      case isFalse hc => exact noItems_eq_ok hc
      case isTrue hc =>
        -- Taking the comma makes the stream shorter, so that the loop's bound still suffices.
        have hstep : ∀ {s₁ : TokenStream P}, s.Gives (.mark .comma) s₁ →
            ((item >>= fun a => itemsAfterComma item n >>= fun bs => pure (a :: bs)) s₁ =
              .ok (as, s') ↔
              as ≠ [] ∧ s₁.Yields (Leaf.commaRow f as) s' ∧ ListEnds stop as s') := by
          intro s₁ h
          have h₁ := (yields_singleton.2 h).length_ahead
          simp at h₁
          exact itemThenRest_eq_ok hitem hcomma fun s₂ bs h₂ => ih (by omega)
        rw [take_bind_eq_expect hc, bind_eq_ok]
        constructor
        · rintro ⟨s₁, t, ht, h⟩
          have hg := ((expect_eq_ok (by decide)).1 ht).2.mark
          obtain ⟨hne, hy, hends⟩ := (hstep hg).1 h
          cases as with
          | nil => exact absurd rfl hne
          | cons a as => exact ⟨.cons hg hy, hends⟩
        · cases as with
          | nil =>
              rintro ⟨h, hnc, -⟩
              obtain rfl : s = s' := by simpa using h
              exact absurd hc hnc
          | cons a as =>
              rintro ⟨⟨s₁, hg, hy⟩, hends⟩
              obtain ⟨t, ht⟩ := gives_mark.1 hg
              exact ⟨s₁, t, (expect_eq_ok (by decide)).2 ht,
                (hstep hg).2 ⟨by simp, hy, hends⟩⟩

/-- A list is read if and only if its row is there and its last item may end there. -/
theorem commaSeparated_eq_ok
    (hitem : ∀ s a s', item s = .ok (a, s') ↔ s.Yields (f a) s' ∧ stop a s'.current.kind)
    (hcomma : ∀ a, stop a .comma) {s s' : TokenStream P} {as : List α} :
    commaSeparated item s = .ok (as, s') ↔
      as ≠ [] ∧ s.Yields (Leaf.commaRow f as) s' ∧ ListEnds stop as s' := by
  have hloop : commaSeparated item =
      item >>= fun a => (remaining >>= itemsAfterComma item) >>= fun bs => pure (a :: bs) := by
    simp [Stepwise.commaSeparated]
  rw [hloop]
  exact itemThenRest_eq_ok hitem hcomma fun s₁ bs _ =>
    itemsAfterComma_eq_ok hitem hcomma (Nat.le_refl _)

end CommaLists

end Parser

end ActorLang
