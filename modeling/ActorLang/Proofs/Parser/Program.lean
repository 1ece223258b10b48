import ActorLang.Parser.Program
import ActorLang.Proofs.Parser.Assignable

/-!
# Programs are read exactly

The rows of statements, functions and programs are put together from those of their parts. On a
sequence of tokens that ends with its only end-of-input token, parsing gives a tree if and only if
the tokens match a row of that tree. This is the only description of success that later proofs
need.
-/

namespace ActorLang

variable {P α : Type}

/-- A row cut into rows of the members of a list. -/
def Leaf.Concat (R : α → List (Leaf P) → Prop) : List α → List (Leaf P) → Prop
  | [], ls => ls = []
  | a :: as, ls => ∃ row rest, R a row ∧ Concat R as rest ∧ ls = row ++ rest

def Inputs.Filled : Inputs P → Prop
  | named _ => True
  | argMap m => m.items ≠ []

def Statement.Spelling (limits : Limits) : Statement P → List (Leaf P) → Prop
  | assign target value, ls =>
    ∃ row, value.Spelling limits limits.depth row ∧ ls = target.leaf :: .mark .assign :: row
  | print actor pos, ls =>
    ∃ row, actor.Spelling limits.depth row ∧ ls = .key .print pos :: (row ++ [.mark .rparen])
  | execute actor inputs pos, ls =>
    ∃ row, actor.Spelling limits.depth row ∧ inputs.Filled ∧
      ls = .key .execute pos :: (row ++ .mark .comma :: (inputs.leaves ++ [.mark .rparen]))
  | ret value pos, ls => ls = [.key .ret pos, value.leaf]

def Statement.Line (limits : Limits) (st : Statement P) (ls : List (Leaf P)) : Prop :=
  ∃ row, st.Spelling limits row ∧ ls = row ++ [.mark .delimiter]

/-- The rows that stand for a block and the token that closes it. -/
def Block.Spelling (limits : Limits) (closer : TokenKind) (b : Block P) (ls : List (Leaf P)) :
    Prop :=
  ∃ rows, Leaf.Concat (Statement.Line limits) b.statements rows ∧
    ls = Leaf.pin b.pos (rows ++ [.mark closer])

def Function.Spelling (limits : Limits) (f : Function P) (ls : List (Leaf P)) : Prop :=
  ∃ body, f.body.Spelling limits .rbrace body ∧
    ls = .key .func f.pos :: f.name.leaf :: .mark .lparen ::
      (Ident.row f.params ++ .mark .rparen :: .mark .lbrace :: body)

def Program.Spelling (limits : Limits) (p : Program P) (ls : List (Leaf P)) : Prop :=
  ∃ fs body, Leaf.Concat (Function.Spelling limits) p.functions fs ∧
    p.body.Spelling limits .eof body ∧ ls = fs ++ body

namespace Parser

open TokenStream Leaf

theorem inputs_eq_ok {s s' : TokenStream P} {i : Inputs P} :
    inputs s = .ok (i, s') ↔ i.Filled ∧ s.Yields i.leaves s' := by
  simp only [Stepwise.inputs, peek_bind]
  constructor
  · intro h
    generalize s.current.kind = k at h
    split at h
    · obtain ⟨id, hid, rfl⟩ : ∃ id, s.Gives id.leaf s' ∧ .named id = i := by
        simpa [map_eq_ok, ident_eq_ok] using h
      exact ⟨trivial, yields_singleton.2 hid⟩
    · obtain ⟨m, hm, rfl⟩ := map_eq_ok.1 (by simpa using h)
      exact argMap_eq_ok.1 hm
    · simp at h
  · rintro ⟨hf, hy⟩
    cases i with
    | named id =>
        have hg := yields_singleton.1 hy
        simp only [hg.current_kind, Ident.leaf_kind]
        exact bind_of_eq_ok (ident_eq_ok.2 hg)
    | argMap m =>
        have hm := bind_of_eq_ok (f := fun m => pure (Inputs.argMap m)) (argMap_eq_ok.2 ⟨hf, hy⟩)
        obtain ⟨s₁, hg, -⟩ := hy
        simp only [hg.current_kind, key_kind]
        exact hm

theorem statement_eq_ok {limits : Limits} {s s' : TokenStream P} {st : Statement P}
    (hs : s'.current.kind = .delimiter) :
    statement limits s = .ok (st, s') ↔ ∃ ls, st.Spelling limits ls ∧ s.Yields ls s' := by
  have hactor : ∀ (s : TokenStream P) a s', actor limits.depth limits.depth s = .ok (a, s') ↔
      Actor.Read limits.depth s a s' := fun _ _ _ => actor_eq_ok
  simp only [Stepwise.statement, Stepwise.statementOf, peek_bind]
  constructor
  · intro h
    generalize hk : s.current.kind = k at h
    split at h
    · obtain ⟨s₁, target, ht, h⟩ := bind_eq_ok.1 h
      obtain ⟨s₂, t₂, ht₂, h⟩ := expectOr_bind_eq_ok (by decide) h
      obtain ⟨s₃, v, hv, he⟩ := bind_eq_ok.1 h
      obtain ⟨rfl, rfl⟩ : Statement.assign target v = st ∧ s₃ = s' := by simpa using he
      obtain ⟨row, hrow, hy⟩ := (assignable_eq_ok hs).1 hv
      exact ⟨_, ⟨row, hrow, rfl⟩, .cons (ident_eq_ok.1 ht) (.cons ht₂.mark hy)⟩
    · obtain ⟨s₁, t, ht, h⟩ := take_bind_eq_ok hk (by decide) h
      obtain ⟨a, row, s₂, ha, hy, he⟩ :=
        (actorThen_eq_ok hactor [] (by decide) (by decide)).1 h
      obtain ⟨rfl, rfl⟩ : Statement.print a t.pos = st ∧ s₂ = s' := by simpa using he
      exact ⟨_, ⟨row, ha, rfl⟩, .cons ht.key hy⟩
    · obtain ⟨s₁, t, ht, h⟩ := take_bind_eq_ok hk (by decide) h
      obtain ⟨a, row, s₂, ha, hy, h⟩ :=
        (actorThen_eq_ok hactor [] (by decide) (by decide)).1 h
      obtain ⟨s₃, i, hi, h⟩ := bind_eq_ok.1 h
      obtain ⟨s₄, t₄, ht₄, he⟩ := expectOr_bind_eq_ok (by decide) h
      obtain ⟨rfl, rfl⟩ : Statement.execute a i t.pos = st ∧ s₄ = s' := by simpa using he
      obtain ⟨hf, hi⟩ := inputs_eq_ok.1 hi
      refine ⟨_, ⟨row, ha, hf, rfl⟩, .cons ht.key ?_⟩
      simpa using hy.append (hi.append (yields_singleton.2 ht₄.mark))
    · obtain ⟨s₁, t, ht, h⟩ := take_bind_eq_ok hk (by decide) h
      obtain ⟨s₂, v, hv, he⟩ := bind_eq_ok.1 h
      obtain ⟨rfl, rfl⟩ : Statement.ret v t.pos = st ∧ s₂ = s' := by simpa using he
      exact ⟨_, rfl, .cons ht.key (yields_singleton.2 (ident_eq_ok.1 hv))⟩
    · simp at h
  · rintro ⟨ls, h, hy⟩
    cases st with
    | assign target value =>
        obtain ⟨row, hrow, rfl⟩ := h
        obtain ⟨s₁, ht, s₂, ha, hy⟩ := hy
        simp only [ht.current_kind, Ident.leaf_kind]
        rw [bind_of_eq_ok (ident_eq_ok.2 ht), expect_bind_of_mark ha (by decide)]
        exact bind_of_eq_ok ((assignable_eq_ok hs).2 ⟨row, hrow, hy⟩)
    | print a pos =>
        obtain ⟨row, ha, rfl⟩ := h
        obtain ⟨s₁, hg, hy⟩ := hy
        simp only [hg.current_kind, key_kind]
        obtain ⟨x, hx⟩ := take_of_key hg (by decide)
        rw [bind_of_eq_ok hx]
        exact (actorThen_eq_ok hactor [] (by decide) (by decide)).2
          ⟨a, row, s', ha, hy, rfl⟩
    | execute a i pos =>
        obtain ⟨row, ha, hf, rfl⟩ := h
        obtain ⟨s₁, hg, hy⟩ := hy
        obtain ⟨s₂, hy, hz⟩ := yields_append.1
          (show s₁.Yields ((row ++ [mark .comma]) ++ (i.leaves ++ [mark .rparen])) s' by
            simpa using hy)
        obtain ⟨s₃, hi, hr⟩ := yields_append.1 hz
        simp only [hg.current_kind, key_kind]
        obtain ⟨x, hx⟩ := take_of_key hg (by decide)
        rw [bind_of_eq_ok hx]
        refine (actorThen_eq_ok hactor [] (by decide) (by decide)).2
          ⟨a, row, s₂, ha, hy, ?_⟩
        rw [bind_of_eq_ok (inputs_eq_ok.2 ⟨hf, hi⟩)]
        exact expect_bind_of_mark (yields_singleton.1 hr) (by decide) _
    | ret value pos =>
        obtain rfl := h
        obtain ⟨s₁, hg, hv⟩ := hy
        simp only [hg.current_kind, key_kind]
        obtain ⟨x, hx⟩ := take_of_key hg (by decide)
        rw [bind_of_eq_ok hx]
        exact bind_of_eq_ok (ident_eq_ok.2 (yields_singleton.1 hv))

/-! ## Loops over items -/

section Loops

variable {item : Parser P α} {R : α → List (Leaf P) → Prop}
  (starts : TokenKind → Bool)
  (hstarts : ∀ a ls, R a ls → ∃ l rest, ls = l :: rest ∧ starts l.kind = true)

include hstarts

/-- Where no item begins, the only row of items is the empty one. -/
theorem noMore_eq_ok {s s' : TokenStream P} {as : List α} (hs : starts s.current.kind = false) :
    (pure [] : Parser P (List α)) s = .ok (as, s') ↔
      ∃ ls, Concat R as ls ∧ s.Yields ls s' ∧ starts s'.current.kind = false := by
  constructor
  · intro h
    obtain ⟨rfl, rfl⟩ : [] = as ∧ s = s' := by simpa using h
    exact ⟨[], rfl, rfl, hs⟩
  · rintro ⟨ls, hls, hy, -⟩
    cases as with
    | nil =>
        obtain rfl : ls = [] := hls
        obtain rfl : s = s' := hy
        rfl
    | cons a as =>
        obtain ⟨row, rest, ha, -, rfl⟩ := hls
        obtain ⟨l, row, rfl, hl⟩ := hstarts a row ha
        obtain ⟨s₁, hg, -⟩ := hy
        rw [hg.current_kind, hl] at hs
        cases hs

/-- Items are read up to the first token that begins none. The bound suffices because no item is
empty. -/
theorem rounds_eq_ok (hitem : ∀ s a s', item s = .ok (a, s') ↔ ∃ ls, R a ls ∧ s.Yields ls s')
    (heof : starts .eof = false) {n : Nat} {s s' : TokenStream P} {as : List α}
    (hn : s.ahead.length ≤ n) :
    rounds starts item n s = .ok (as, s') ↔
      ∃ ls, Concat R as ls ∧ s.Yields ls s' ∧ starts s'.current.kind = false := by
  induction n generalizing s as with
  | zero =>
      apply noMore_eq_ok starts hstarts
      have ha : s.ahead = [] := List.length_eq_zero_iff.1 (Nat.le_zero.1 hn)
      simpa [TokenStream.current, ha, s.final_kind] using heof
  | succ n ih =>
      simp only [rounds, peek_bind]
      split
      case isFalse hs => exact noMore_eq_ok starts hstarts (by simpa using hs)
      case isTrue hs =>
        have hshort : ∀ {a ls s₁}, R a ls → s.Yields ls s₁ → s₁.ahead.length ≤ n := by
          intro a ls s₁ ha hy
          obtain ⟨l, rest, rfl, -⟩ := hstarts a ls ha
          have hlen := hy.length_ahead
          simp only [List.length_cons] at hlen
          omega
        simp only [bind_eq_ok, hitem]
        constructor
        · rintro ⟨s₁, a, ⟨row, ha, hy⟩, s₂, bs, hbs, he⟩
          obtain ⟨rfl, rfl⟩ : a :: bs = as ∧ s₂ = s' := by simpa using he
          obtain ⟨rest, hrest, hz, hend⟩ := (ih (hshort ha hy)).1 hbs
          exact ⟨row ++ rest, ⟨row, rest, ha, hrest, rfl⟩, hy.append hz, hend⟩
        · rintro ⟨ls, hls, hy, hend⟩
          cases as with
          | nil =>
              obtain rfl : ls = [] := hls
              obtain rfl : s = s' := hy
              rw [hs] at hend
              cases hend
          | cons a as =>
              obtain ⟨row, rest, ha, hrest, rfl⟩ := hls
              obtain ⟨s₁, hy, hz⟩ := yields_append.1 hy
              have hbs := (ih (hshort ha hy)).2 ⟨rest, hrest, hz, hend⟩
              exact ⟨s₁, a, ⟨row, ha, hy⟩, s', as, hbs, rfl⟩

end Loops

/-! ## Blocks, functions and programs -/

theorem line_eq_ok {limits : Limits} {s s' : TokenStream P} {st : Statement P} :
    line (statement limits) s = .ok (st, s') ↔ ∃ ls, st.Line limits ls ∧ s.Yields ls s' := by
  constructor
  · intro h
    obtain ⟨s₁, st', hst, h⟩ := bind_eq_ok.1 h
    obtain ⟨s₂, t, ht, he⟩ := expectOr_bind_eq_ok (by decide) h
    obtain ⟨rfl, rfl⟩ : st' = st ∧ s₂ = s' := by simpa using he
    obtain ⟨row, hrow, hy⟩ := (statement_eq_ok ht.current_kind).1 hst
    exact ⟨_, ⟨row, hrow, rfl⟩, hy.append (yields_singleton.2 ht.mark)⟩
  · rintro ⟨ls, ⟨row, hrow, rfl⟩, hy⟩
    obtain ⟨s₁, hy, hd⟩ := yields_append.1 hy
    have hd := yields_singleton.1 hd
    unfold line Stepwise.line
    rw [bind_of_eq_ok ((statement_eq_ok hd.current_kind).2 ⟨row, hrow, hy⟩)]
    exact expect_bind_of_mark hd (by decide) _

theorem starts_line {limits : Limits} (st : Statement P) (ls : List (Leaf P))
    (h : st.Line limits ls) : ∃ l rest, ls = l :: rest ∧ Rule.starts .stmt l.kind = true := by
  obtain ⟨row, hrow, rfl⟩ := h
  cases st with
  | assign target value =>
      obtain ⟨row, -, rfl⟩ := hrow
      exact ⟨_, _, rfl, rfl⟩
  | print a pos =>
      obtain ⟨row, -, rfl⟩ := hrow
      exact ⟨_, _, rfl, rfl⟩
  | execute a i pos =>
      obtain ⟨row, -, -, rfl⟩ := hrow
      exact ⟨_, _, rfl, rfl⟩
  | ret value pos =>
      obtain rfl := hrow
      exact ⟨_, _, rfl, rfl⟩

/-- The bound on the number of statements is not met, as each one takes a token. -/
theorem statements_eq_ok {limits : Limits} {n : Nat} {s s' : TokenStream P}
    {sts : List (Statement P)} (hn : s.ahead.length ≤ n) :
    statements limits n s = .ok (sts, s') ↔
      ∃ ls, Concat (Statement.Line limits) sts ls ∧ s.Yields ls s' ∧
        Rule.starts .stmt s'.current.kind = false :=
  rounds_eq_ok (Rule.starts .stmt) starts_line (fun _ _ _ => line_eq_ok) rfl hn

/-- A block and the token that closes it, which begins no statement. -/
theorem block_eq_ok {limits : Limits} {closer : TokenKind}
    (hc : Rule.starts .stmt closer = false) {s s₁ : TokenStream P} {b : Block P}
    (hs : s₁.current.kind = closer) :
    block limits s = .ok (b, s₁) ↔
      s.current.pos = b.pos ∧
        ∃ rows, Concat (Statement.Line limits) b.statements rows ∧ s.Yields rows s₁ := by
  simp only [Stepwise.blockOf, repeated, bind_assoc, peek_bind, remaining_bind, bind_eq_ok,
    statements_eq_ok (Nat.le_refl _)]
  constructor
  · rintro ⟨s₂, sts, ⟨rows, hrows, hy, -⟩, he⟩
    obtain ⟨rfl, rfl⟩ : ⟨sts, s.current.pos⟩ = b ∧ s₂ = s₁ := by simpa using he
    exact ⟨rfl, rows, hrows, hy⟩
  · rintro ⟨hpos, rows, hrows, hy⟩
    refine ⟨s₁, b.statements, ⟨rows, hrows, hy, by rw [hs, hc]⟩, ?_⟩
    rw [hpos]
    rfl

theorem function_eq_ok {limits : Limits} {s s' : TokenStream P} {f : Function P} :
    function limits s = .ok (f, s') ↔ ∃ ls, f.Spelling limits ls ∧ s.Yields ls s' := by
  constructor
  · intro h
    obtain ⟨s₁, t, ht, h⟩ := expectOr_bind_eq_ok (by decide) h
    obtain ⟨s₂, name, hname, h⟩ := bind_eq_ok.1 h
    obtain ⟨s₃, params, hparams, h⟩ := bind_eq_ok.1 h
    obtain ⟨s₄, t₄, ht₄, h⟩ := expectOr_bind_eq_ok (by decide) h
    obtain ⟨s₅, body, hbody, h⟩ := bind_eq_ok.1 h
    obtain ⟨s₆, t₆, ht₆, he⟩ := expectOr_bind_eq_ok (by decide) h
    obtain ⟨rfl, rfl⟩ : ⟨name, params, body, t.pos⟩ = f ∧ s₆ = s' := by simpa using he
    obtain ⟨hpos, rows, hrows, hy⟩ := (block_eq_ok rfl ht₆.current_kind).1 hbody
    refine ⟨_, ⟨_, ⟨rows, hrows, rfl⟩, rfl⟩, .cons ht.key (.cons (ident_eq_ok.1 hname) ?_)⟩
    have hblock := (yields_pin (by simp)).2
      ⟨hpos, hy.append (yields_singleton.2 ht₆.mark)⟩
    simpa using (identsInParens_eq_ok.1 hparams).append (.cons ht₄.mark hblock)
  · rintro ⟨ls, ⟨body, ⟨rows, hrows, rfl⟩, rfl⟩, s₁, ht, s₂, hname, hy⟩
    obtain ⟨s₃, hparams, s₄, ht₄, hy⟩ := yields_append.1
      (show s₂.Yields ((mark .lparen :: (Ident.row f.params ++ [mark .rparen])) ++
        (mark .lbrace :: pin f.body.pos (rows ++ [mark .rbrace]))) s' by simpa using hy)
    obtain ⟨hpos, hy⟩ := (yields_pin (by simp)).1 hy
    obtain ⟨s₅, hy, hr⟩ := yields_append.1 hy
    have hr := yields_singleton.1 hr
    obtain ⟨x, hx⟩ := expect_of_key ht (by decide)
    have hbody := (block_eq_ok rfl hr.current_kind).2 ⟨hpos, rows, hrows, hy⟩
    unfold function Stepwise.function Stepwise.functionOf
    rw [bind_of_eq_ok hx, bind_of_eq_ok (ident_eq_ok.2 hname),
      bind_of_eq_ok (identsInParens_eq_ok.2 hparams), expect_bind_of_mark ht₄ (by decide),
      bind_of_eq_ok hbody, expectOr_bind_of_mark hr (by decide)]
    rfl

theorem functions_eq_ok {limits : Limits} {n : Nat} {s s' : TokenStream P}
    {fs : List (Function P)} (hn : s.ahead.length ≤ n) :
    functions limits n s = .ok (fs, s') ↔
      ∃ ls, Concat (Function.Spelling limits) fs ls ∧ s.Yields ls s' ∧
        (s'.current.kind == .func) = false := by
  refine rounds_eq_ok (· == .func) (fun f ls h => ?_) (fun _ _ _ => function_eq_ok) rfl hn
  obtain ⟨body, -, rfl⟩ := h
  exact ⟨_, _, rfl, rfl⟩

/-! ## Whole inputs -/

theorem expectEnd_bind_eq_ok {others : List TokenKind} {s s' : TokenStream P} {a b : α} :
    (expectEnd others >>= fun _ => pure a) s = .ok (b, s') ↔
      s.current.kind = .eof ∧ a = b ∧ s = s' := by
  simp only [expectEnd, bind_eq_ok, nextIs_bind, beq_iff_eq]
  split
  · simp_all
  · simp_all

theorem spanning_eq_ok {others : List TokenKind} {p : Parser P α} {s s' : TokenStream P} {a : α} :
    spanning others p s = .ok (a, s') ↔ p s = .ok (a, s') ∧ s'.current.kind = .eof := by
  simp only [spanning, bind_eq_ok (p := p), expectEnd_bind_eq_ok]
  constructor
  · rintro ⟨s₁, a', h, heof, rfl, rfl⟩
    exact ⟨h, heof⟩
  · rintro ⟨h, heof⟩
    exact ⟨s', a, h, heof, rfl, rfl⟩

/-- The first token of a block and its closer begins a statement or is the closer. -/
theorem current_of_lines {limits : Limits} {sts : List (Statement P)} {rows : List (Leaf P)}
    {s s' : TokenStream P} (h : Concat (Statement.Line limits) sts rows) (hy : s.Yields rows s') :
    Rule.starts .stmt s.current.kind = true ∨ s = s' := by
  cases sts with
  | nil =>
      obtain rfl : rows = [] := h
      exact .inr hy
  | cons st sts =>
      obtain ⟨row, rest, hrow, -, rfl⟩ := h
      obtain ⟨l, row, rfl, hl⟩ := starts_line st row hrow
      obtain ⟨s₁, hg, -⟩ := hy
      exact .inl (by rw [hg.current_kind, hl])

theorem program_eq_ok {limits : Limits} {s : TokenStream P} (hs : s.Closed) {p : Program P} :
    (∃ s', program limits s = .ok (p, s')) ↔ ∃ ls, p.Spelling limits ls ∧ s.Ends ls := by
  simp only [spanning_eq_ok, Stepwise.programOf, repeated, bind_assoc, remaining_bind,
    bind_eq_ok (p := functions limits _), functions_eq_ok (Nat.le_refl _)]
  constructor
  · rintro ⟨s', ⟨s₁, fs, ⟨ls, hls, hy, -⟩, h⟩, heof⟩
    obtain ⟨s₂, body, hbody, he⟩ := bind_eq_ok.1 h
    obtain ⟨rfl, rfl⟩ : ⟨fs, body⟩ = p ∧ s₂ = s' := by simpa using he
    obtain ⟨hpos, rows, hrows, hz⟩ := (block_eq_ok rfl heof).1 hbody
    refine ⟨_, ⟨ls, _, hls, ⟨rows, hrows, rfl⟩, rfl⟩, (ends_append (by simp)).2 ⟨s₁, hy, ?_⟩⟩
    have hend := ((hs.yields hy).yields hz).current_eq_eof.1 heof
    exact (ends_pin (by simp)).2 ⟨hpos, (ends_append (by simp)).2 ⟨s₂, hz, hend⟩⟩
  · rintro ⟨ls, ⟨fs, body, hfs, ⟨rows, hrows, rfl⟩, rfl⟩, hends⟩
    obtain ⟨s₁, hy, hends⟩ := (ends_append (by simp)).1 hends
    obtain ⟨hpos, hends⟩ := (ends_pin (by simp)).1 hends
    obtain ⟨s₂, hz, hends⟩ := (ends_append (by simp)).1 hends
    have heof := ((hs.yields hy).yields hz).current_eq_eof.2 hends
    have hbody := (block_eq_ok rfl heof).2 ⟨hpos, rows, hrows, hz⟩
    have hfunc : (s₁.current.kind == .func) = false := by
      rcases current_of_lines hrows hz with hstart | rfl
      · cases hk : s₁.current.kind <;> simp_all [Rule.starts, Rule.alternatives]
      · simp [heof]
    exact ⟨s₂, ⟨s₁, p.functions, ⟨fs, hfs, hy, hfunc⟩, bind_of_eq_ok hbody⟩, heof⟩

theorem wholeActor_eq_ok {limits : Limits} {s : TokenStream P} (hs : s.Closed) {a : Actor P} :
    (∃ s', wholeActor limits s = .ok (a, s')) ↔
      ∃ ls, a.Spelling limits.depth ls ∧ s.Ends (ls ++ [mark .eof]) := by
  simp only [spanning_eq_ok, actor_eq_ok]
  constructor
  · rintro ⟨s₁, ⟨ls, hls, hy, -⟩, heof⟩
    exact ⟨ls, hls, (ends_append (by simp)).2 ⟨s₁, hy, (hs.yields hy).current_eq_eof.1 heof⟩⟩
  · rintro ⟨ls, hls, hends⟩
    obtain ⟨s₁, hy, hends⟩ := (ends_append (by simp)).1 hends
    have heof := (hs.yields hy).current_eq_eof.2 hends
    exact ⟨s₁, .of_spelling hls hy (by simp [heof]), heof⟩

theorem wholeExpr_eq_ok {limits : Limits} {s : TokenStream P} (hs : s.Closed) {e : Expr P} :
    (∃ s', wholeExpr limits s = .ok (e, s')) ↔
      e.Normal ∧ e.depth ≤ limits.depth ∧ s.Ends (e.leaves ++ [mark .eof]) := by
  simp only [spanning_eq_ok, exprAt_eq_ok]
  constructor
  · rintro ⟨s₁, hr, heof⟩
    have hend := (hs.yields hr.yields).current_eq_eof.1 heof
    exact ⟨hr.normal, hr.depth_le, (ends_append (by simp)).2 ⟨s₁, hr.yields, hend⟩⟩
  · rintro ⟨hn, hd, hends⟩
    obtain ⟨s₁, hy, hends⟩ := (ends_append (by simp)).1 hends
    have heof := (hs.yields hy).current_eq_eof.2 hends
    exact ⟨s₁, ⟨hn, hd, by simp, hy, fun _ => by simp [heof]⟩, heof⟩

end Parser

/-- A sequence of tokens ends with its only end-of-input token. -/
def Terminated (tokens : List (Token P)) : Prop :=
  ∃ body last, tokens = body ++ [last] ∧ last.kind = .eof ∧ ∀ t ∈ body, t.kind ≠ .eof

/-- Carries the description of a parser over from streams to sequences of tokens. -/
theorem Parser.run_eq_ok [Inhabited P] {p : Parser P α} {S : List (Leaf P) → α → Prop}
    (hp : ∀ s a, s.Closed → ((∃ s', p s = .ok (a, s')) ↔ ∃ ls, S ls a ∧ s.Ends ls))
    {tokens : List (Token P)} (ht : Terminated tokens) {a : α} :
    p.run tokens = .ok a ↔ ∃ ls, S ls a ∧ List.Forall₂ Leaf.Matches ls tokens := by
  obtain ⟨body, last, rfl, hlast, hbody⟩ := ht
  have hstream : TokenStream.ofTokens (body ++ [last]) = .ok ⟨body, last, [], hlast⟩ := by
    simp [TokenStream.ofTokens, hlast]
  refine Iff.trans ?_ (hp ⟨body, last, [], hlast⟩ a hbody)
  simp only [run, hstream, bind, Except.bind, pure, Except.pure]
  cases h : p ⟨body, last, [], hlast⟩ with
  | error e => simp
  | ok r => simp [Prod.ext_iff]

section OfTokens

variable [Inhabited P] {limits : Limits} {tokens : List (Token P)}

/-- Tokens are parsed to exactly those programs of which they match a row. -/
theorem Program.ofTokens_eq_ok (ht : Terminated tokens) {p : Program P} :
    Program.ofTokens limits tokens = .ok p ↔
      ∃ ls, p.Spelling limits ls ∧ List.Forall₂ Leaf.Matches ls tokens :=
  Parser.run_eq_ok (S := fun ls p => Program.Spelling limits p ls)
    (fun _ _ hs => Parser.program_eq_ok hs) ht

theorem Actor.ofTokens_eq_ok (ht : Terminated tokens) {a : Actor P} :
    Actor.ofTokens limits tokens = .ok a ↔
      ∃ ls, a.Spelling limits.depth ls ∧
        List.Forall₂ Leaf.Matches (ls ++ [.mark .eof]) tokens := by
  have h := Parser.run_eq_ok (p := Parser.wholeActor limits) (a := a)
    (S := fun ls a => ∃ row, Actor.Spelling limits.depth a row ∧ ls = row ++ [.mark .eof])
    (fun s a hs => (Parser.wholeActor_eq_ok hs).trans (by simp)) ht
  exact h.trans (by simp)

theorem Expr.ofTokens_eq_ok (ht : Terminated tokens) {e : Expr P} :
    Expr.ofTokens limits tokens = .ok e ↔
      e.Normal ∧ e.depth ≤ limits.depth ∧
        List.Forall₂ Leaf.Matches (e.leaves ++ [.mark .eof]) tokens := by
  have h := Parser.run_eq_ok (p := Parser.wholeExpr limits) (a := e)
    (S := fun ls e => Expr.Normal e ∧ e.depth ≤ limits.depth ∧ ls = e.leaves ++ [.mark .eof])
    (fun s e hs => (Parser.wholeExpr_eq_ok hs).trans (by simp [and_assoc])) ht
  exact h.trans (by simp [and_assoc])

end OfTokens

end ActorLang
