import ActorLang.Proofs.Run.Rules

/-!
# What a run of a statement or a program can do

The form of an assigned value is chosen by tokens that may lie far behind the cursor. Every run that
follows gets behind these tokens, so that the choice is the same on every stream that begins with
what the run has passed.
-/

namespace ActorLang

variable {P α : Type}

namespace TokenStream

/-- A stream begins with `m` opening parentheses and then a token of another class. -/
structure Parens (s : TokenStream P) (m : Nat) : Prop where
  parens : ∀ j < m, s.kindAt j = .lparen
  head : s.kindAt m ≠ .lparen

theorem parens_succ {s : TokenStream P} {m : Nat} (hs : s.current.kind = .lparen) :
    s.Parens (m + 1) ↔ s.next.2.Parens m := by
  have hnext := gives_next (s := s) (by simp [hs])
  constructor
  · rintro ⟨hparens, hhead⟩
    refine ⟨fun j hj => ?_, by rwa [← hnext.kindAt_succ]⟩
    rw [← hnext.kindAt_succ]
    exact hparens (j + 1) (Nat.succ_lt_succ hj)
  · rintro ⟨hparens, hhead⟩
    refine ⟨fun j hj => ?_, by rwa [hnext.kindAt_succ]⟩
    cases j with
    | zero => exact hs
    | succ j =>
        rw [hnext.kindAt_succ]
        exact hparens j (Nat.lt_of_succ_lt_succ hj)

theorem Parens.congr {s t : TokenStream P} {m : Nat} (h : s.Parens m)
    (heq : ∀ j ≤ m, t.kindAt j = s.kindAt j) : t.Parens m := by
  refine ⟨fun j hj => ?_, ?_⟩
  · rw [heq j (Nat.le_of_lt hj)]
    exact h.parens j hj
  · rw [heq m (Nat.le_refl m)]
    exact h.head

/-- The parentheses at the head of a stream, and a name behind them, are in its lead. -/
theorem exists_parens (s : TokenStream P) :
    ∃ m, s.Parens m ∧ m ≤ s.lead ∧ (s.kindAt m = .ident → m + 1 ≤ s.lead) := by
  induction hn : s.ahead.length generalizing s with
  | zero =>
      have ha : s.ahead = [] := List.length_eq_zero_iff.1 hn
      have hk : s.kindAt 0 = .eof := by simp [kindAt, ha, s.final_kind]
      exact ⟨0, ⟨by simp, by simp [hk]⟩, Nat.zero_le _, by simp [hk]⟩
  | succ len ih =>
      by_cases hs : s.current.kind = .lparen
      · have hnext := gives_next (s := s) (by simp [hs])
        have hlead : s.lead = s.next.2.lead + 1 := by rw [lead_eq, hs]
        have hlen : s.next.2.ahead.length = len := by
          rw [ahead_next, List.length_tail, hn, Nat.add_sub_cancel]
        obtain ⟨m, hm, hle, hident⟩ := ih s.next.2 hlen
        refine ⟨m + 1, (parens_succ hs).2 hm, ?_, ?_⟩
        · rw [hlead]
          exact Nat.succ_le_succ hle
        · rw [hnext.kindAt_succ, hlead]
          exact fun hk => Nat.succ_le_succ (hident hk)
      · refine ⟨0, ⟨by simp, hs⟩, Nat.zero_le _, fun hk => ?_⟩
        have hlead : s.lead = 1 := by
          rw [lead_eq, show s.current.kind = .ident from hk]
        exact Nat.le_of_eq hlead.symm

end TokenStream

namespace Parser

open TokenStream Form

theorem parenRun_succ {limit room : Nat} {s : TokenStream P} (hs : s.current.kind = .lparen) :
    parenRun limit (room + 1) s.ahead = (parenRun limit room s.next.2.ahead).map (· + 1) := by
  obtain ⟨t, rest, ha, -, -⟩ := gives_next (s := s) (by simp [hs])
  have ht : t.kind = .lparen := by simpa [current, ha] using hs
  simp [ahead_next, ha, parenRun, ht]

/-- A run of parentheses that there is room for is counted to its end. -/
theorem parenRun_eq_ok {limit room m : Nat} {s : TokenStream P} (h : s.Parens m) (hm : m ≤ room) :
    parenRun limit room s.ahead = .ok m := by
  induction m generalizing room s with
  | zero =>
      rcases ha : s.ahead with _ | ⟨t, rest⟩
      · cases room <;> rfl
      · have ht : t.kind ≠ .lparen := by simpa [kindAt, ha] using h.head
        cases room <;> simp [parenRun, ht]
  | succ m ih =>
      obtain ⟨room, rfl⟩ : ∃ r, room = r + 1 := ⟨room - 1, by omega⟩
      have hs : s.current.kind = .lparen := h.parens 0 (Nat.succ_pos m)
      rw [parenRun_succ hs, ih ((parens_succ hs).1 h) (Nat.le_of_succ_le_succ hm)]
      rfl

/-- A run of more parentheses than there is room for is refused at the first one too many. -/
theorem parenRun_eq_error (limit : Nat) {room m : Nat} {s : TokenStream P} (h : s.Parens m)
    (hm : room < m) : ∃ t, (s.ahead ++ [s.final])[room]? = some t ∧
      parenRun limit room s.ahead = .error ⟨.nesting limit, t.pos⟩ := by
  obtain ⟨m, rfl⟩ : ∃ r, m = r + 1 := ⟨m - 1, by omega⟩
  have hs : s.current.kind = .lparen := h.parens 0 (Nat.succ_pos m)
  induction room generalizing m s with
  | zero =>
      obtain ⟨t, rest, ha, -, -⟩ := gives_next (s := s) (by simp [hs])
      have ht : t.kind = .lparen := by simpa [current, ha] using hs
      exact ⟨t, by simp [ha], by simp [ha, parenRun, ht]⟩
  | succ room ih =>
      have hnext := (parens_succ hs).1 h
      obtain ⟨m, rfl⟩ : ∃ r, m = r + 1 := ⟨m - 1, by omega⟩
      obtain ⟨t, ht, hrun⟩ := ih m hnext (Nat.lt_of_succ_lt_succ hm)
        (hnext.parens 0 (Nat.succ_pos m))
      refine ⟨t, ?_, ?_⟩
      · have hget := (Takes.next (s := s) (by simp [hs])).getElem?_ahead room
        rw [List.length_singleton, Nat.add_comm] at hget
        exact hget.trans ht
      · rw [parenRun_succ hs, hrun]
        rfl

theorem assignableForm_inner {limits : Limits} {room n : Nat} {s : TokenStream P}
    (hrun : parenRun limits.depth room s.ahead = .ok n) (hn : 0 < n)
    (hk : s.kindAt n ∉ [TokenKind.not, .instanceOf, .elementOf, .ident]) :
    assignableForm limits room s = .ok (.actor, s) := by
  simp only [assignableForm, formBehind, get_bind, lift_bind hrun]
  generalize s.kindAt n = k at hk
  split
  case h_5 => simp [hn]
  all_goals simp at hk

theorem starts_assignable (k : TokenKind) : Rule.starts .assignable k = true ↔
    k ∈ [TokenKind.not, .instanceOf, .elementOf, .ident] ∨
      k ∈ [TokenKind.artifactFactory, .lbrace, .str] ∨ Rule.starts .actor k = true := by
  cases k <;> decide

theorem assignableForm_unexpected {limits : Limits} {room : Nat} {s : TokenStream P}
    (hrun : parenRun limits.depth room s.ahead = .ok 0)
    (hk : ¬ Rule.starts .assignable s.current.kind = true) :
    assignableForm limits room s = unexpected (Rule.first .assignable) s := by
  simp only [assignableForm, formBehind, get_bind, lift_bind hrun, kindAt_zero]
  generalize s.current.kind = k at hk
  rw [starts_assignable] at hk
  obtain ⟨hexp, hother, hactor⟩ := (not_or.trans (and_congr_right fun _ => not_or)).1 hk
  split
  case h_5 =>
    rw [if_neg (Nat.lt_irrefl 0)]
    split
    case h_4 =>
      rw [if_neg hactor]
    all_goals simp at hother
  all_goals simp at hexp

namespace Outcome

variable {limits limits' : Limits} {n : Nat} {s : TokenStream P}

/-- A choice between the forms of an assigned value that depends on the tokens up to the `w`-th
one. -/
theorem assignableOf {w room room' : Nat} {form : Assignable.Form}
    (hform : ∀ t : TokenStream P, (∀ j ≤ w, t.kindAt j = s.kindAt j) →
      assignableForm limits room t = .ok (form, t) ∧
        assignableForm limits' room' t = .ok (form, t))
    (h : Outcome limits limits' (Rule.production .assignable) [] w n
      (assignableAs (Parser.expr limits.depth room) (Parser.actor limits.depth room) form)
      (assignableAs (Parser.expr limits'.depth room') (Parser.actor limits'.depth room') form) s) :
    Outcome limits limits' (rule .assignable) [] 0 n (assignable limits room)
      (assignable limits' room') s := by
  refine Outcome.mono (Outcome.congr h.produced fun t _ ht => ?_) (Nat.zero_le w) (Nat.le_refl n)
  obtain ⟨hp, hq⟩ := hform t ht
  exact ⟨bind_of_eq_ok hp, bind_of_eq_ok hq⟩

section Limits

variable {extra : Nat} (hdepth : limits'.depth = limits.depth + extra)
  (hlook : limits'.lookahead = limits.lookahead ∨ 2 ≤ limits.lookahead ∧ 2 ≤ limits'.lookahead)

include hdepth hlook

section Behind

variable {m room : Nat} (hm : s.Parens m) (hroom : m ≤ room)

omit hlook hdepth in
include hm hroom in
/-- Streams that agree up to the first token behind the parentheses have the same number of them. -/
theorem parenRun_of_agree {w : Nat} (hw : m ≤ w) {t : TokenStream P}
    (ht : ∀ j ≤ w, t.kindAt j = s.kindAt j) :
    parenRun limits.depth room t.ahead = .ok m ∧
      parenRun limits'.depth (room + extra) t.ahead = .ok m := by
  have hparens := hm.congr fun j hj => ht j (Nat.le_trans hj hw)
  exact ⟨parenRun_eq_ok hparens hroom, parenRun_eq_ok hparens (Nat.le_add_right_of_le hroom)⟩

omit hlook in
theorem assignableExpr : Outcome limits limits' (Rule.production .assignable) [] s.lead room
    (assignableAs (Parser.expr limits.depth room) (Parser.actor limits.depth room) .expression)
    (assignableAs (Parser.expr limits'.depth (room + extra))
      (Parser.actor limits'.depth (room + extra)) .expression) s :=
  .nth 0 rfl ((expr hdepth room s).forget.map _)

omit hlook in
theorem assignableActor : Outcome limits limits' (Rule.production .assignable) [] s.lead room
    (assignableAs (Parser.expr limits.depth room) (Parser.actor limits.depth room) .actor)
    (assignableAs (Parser.expr limits'.depth (room + extra))
      (Parser.actor limits'.depth (room + extra)) .actor) s :=
  .nth 3 rfl ((actor hdepth room s).map _)

include hm hroom

/-- A name behind the parentheses is an actor if it is called, else an expression. -/
theorem assignableName (hid : s.kindAt m = .ident) (hlead : m + 1 ≤ s.lead) :
    Outcome limits limits' (rule .assignable) [] 0 room (assignable limits room)
      (assignable limits' (room + extra)) s := by
  by_cases hfar : limits.lookahead ≤ 1
  · -- The token behind the name is out of reach.
    have hlook : limits'.lookahead = limits.lookahead := hlook.resolve_right (by omega)
    obtain ⟨hp, hq⟩ := parenRun_of_agree hm hroom (Nat.le_refl m) (t := s) fun _ _ => rfl
    have hp := assignableForm_ident hp hid
    have hq := assignableForm_ident hq hid
    rw [hlook, if_pos hfar] at hq
    rw [if_pos hfar] at hp
    exact .faults (bind_of_eq_error hp) (bind_of_eq_error hq) (.inl hfar)
  · have hfar' : ¬ limits'.lookahead ≤ 1 := by omega
    have hform : ∀ t : TokenStream P, (∀ j ≤ s.lead, t.kindAt j = s.kindAt j) →
        assignableForm limits room t =
            .ok (if s.kindAt (m + 1) = .lparen then .actor else .expression, t) ∧
          assignableForm limits' (room + extra) t =
            .ok (if s.kindAt (m + 1) = .lparen then .actor else .expression, t) := by
      intro t ht
      have hle : m ≤ s.lead := Nat.le_of_succ_le hlead
      obtain ⟨hp, hq⟩ := parenRun_of_agree hm hroom hle ht
      have hk : t.kindAt m = .ident := (ht m hle).trans hid
      rw [assignableForm_ident hp hk, assignableForm_ident hq hk, if_neg hfar, if_neg hfar',
        ht (m + 1) hlead]
      exact ⟨rfl, rfl⟩
    by_cases hnext : s.kindAt (m + 1) = .lparen
    · simp only [hnext, if_true] at hform
      exact assignableOf hform (assignableActor hdepth)
    · simp only [hnext, if_false] at hform
      exact assignableOf hform (assignableExpr hdepth)

end Behind

omit hlook in
theorem assignableHead {room : Nat} (hm : s.Parens 0)
    (hk : s.current.kind ∉ [TokenKind.not, .instanceOf, .elementOf, .ident]) :
    Outcome limits limits' (rule .assignable) [] 0 room (assignable limits room)
      (assignable limits' (room + extra)) s := by
  have hrun : ∀ {t : TokenStream P}, (∀ j ≤ 0, t.kindAt j = s.kindAt j) →
      parenRun limits.depth room t.ahead = .ok 0 ∧
        parenRun limits'.depth (room + extra) t.ahead = .ok 0 := fun ht =>
    parenRun_of_agree hm (Nat.zero_le _) (Nat.le_refl 0) ht
  have hother : ∀ form : Assignable.Form, (s.current.kind, form) ∈
        [(TokenKind.artifactFactory, Assignable.Form.artifact), (.lbrace, .argMap),
          (.str, .literal)] →
      ∀ t : TokenStream P, (∀ j ≤ 0, t.kindAt j = s.kindAt j) →
        assignableForm limits room t = .ok (form, t) ∧
          assignableForm limits' (room + extra) t = .ok (form, t) := by
    intro form hform t ht
    obtain ⟨hp, hq⟩ := hrun ht
    exact ⟨assignableForm_other hp (ht 0 (Nat.le_refl 0)) rfl hform,
      assignableForm_other hq (ht 0 (Nat.le_refl 0)) rfl hform⟩
  by_cases hfactory : s.current.kind = .artifactFactory
  · exact assignableOf (hother .artifact (by rw [hfactory]; simp)) (.nth 1 rfl (artifact.map _))
  by_cases hbrace : s.current.kind = .lbrace
  · exact assignableOf (hother .argMap (by rw [hbrace]; simp)) (.nth 2 rfl (argMap.map _))
  by_cases hstr : s.current.kind = .str
  · exact assignableOf (hother .literal (by rw [hstr]; simp)) (.nth 4 rfl (literal.map _))
  by_cases hstart : Rule.starts .actor s.current.kind = true
  · refine assignableOf (fun t ht => ?_)
      ((assignableActor hdepth).mono (Nat.zero_le _) (Nat.le_refl room))
    obtain ⟨hp, hq⟩ := hrun ht
    have hident : s.current.kind ≠ .ident := by
      rintro hident
      simp [hident] at hk
    exact ⟨assignableForm_actor hp (ht 0 (Nat.le_refl 0)) hstart hident,
      assignableForm_actor hq (ht 0 (Nat.le_refl 0)) hstart hident⟩
  · have hno : ¬ Rule.starts .assignable s.current.kind = true := by
      rw [starts_assignable]
      simp [hk, hfactory, hbrace, hstr, hstart]
    have hrefused : Outcome limits limits' (rule .assignable) [] 0 room
        (Parser.unexpected (Rule.first .assignable) : Parser P (Assignable P))
        (Parser.unexpected (Rule.first .assignable)) s := by
      exact unexpected (by decide) (fun hmem => hno (Rule.mem_first.1 hmem)) fun k hk =>
        viable_of_starts (Rule.mem_first.1 hk)
    refine hrefused.congr fun t ht hkinds => ?_
    obtain ⟨hp, hq⟩ := hrun hkinds
    have htno : ¬ Rule.starts .assignable t.current.kind = true := by rwa [ht.kind]
    exact ⟨bind_of_eq_error (assignableForm_unexpected hp htno),
      bind_of_eq_error (assignableForm_unexpected hq htno)⟩

theorem assignableBehind {m room : Nat} (hm : s.Parens m) (hroom : m ≤ room) (hlead : m ≤ s.lead)
    (hident : s.kindAt m = .ident → m + 1 ≤ s.lead) :
    Outcome limits limits' (rule .assignable) [] 0 room (assignable limits room)
      (assignable limits' (room + extra)) s := by
  by_cases hexp : s.kindAt m = .not ∨ s.kindAt m = .instanceOf ∨ s.kindAt m = .elementOf
  · refine assignableOf (fun t ht => ?_) (assignableExpr hdepth)
    obtain ⟨hp, hq⟩ := parenRun_of_agree hm hroom hlead ht
    have hk := ht m hlead
    exact ⟨assignableForm_expression hp hk hexp, assignableForm_expression hq hk hexp⟩
  by_cases hid : s.kindAt m = .ident
  · exact assignableName hdepth hlook hm hroom hid (hident hid)
  have hk : s.kindAt m ∉ [TokenKind.not, .instanceOf, .elementOf, .ident] := by
    simpa [not_or, hid] using hexp
  by_cases hpos : 0 < m
  · refine assignableOf (fun t ht => ?_) (assignableActor hdepth)
    obtain ⟨hp, hq⟩ := parenRun_of_agree hm hroom hlead ht
    rw [← ht m hlead] at hk
    -- The actor rule is left to refuse what begins neither an actor nor an expression.
    exact ⟨assignableForm_inner hp hpos hk, assignableForm_inner hq hpos hk⟩
  · obtain rfl : m = 0 := Nat.eq_zero_of_not_pos hpos
    exact assignableHead hdepth hm hk

theorem assignable (room : Nat) (s : TokenStream P) :
    Outcome limits limits' (rule .assignable) [] 0 room (assignable limits room)
      (assignable limits' (room + extra)) s := by
  obtain ⟨m, hm, hlead, hident⟩ := s.exists_parens
  by_cases hroom : m ≤ room
  · exact assignableBehind hdepth hlook hm hroom hlead hident
  · obtain ⟨t, ht, hrun⟩ := parenRun_eq_error limits.depth hm (Nat.lt_of_not_le hroom)
    have hform : ∀ limits₁ : Limits, limits₁.depth = limits.depth →
        Parser.assignable limits₁ room s = .error ⟨.nesting limits.depth, t.pos⟩ := by
      intro limits₁ heq
      refine bind_of_eq_error ?_
      simp only [assignableForm, formBehind, get_bind, heq, hrun]
      rfl
    -- The parentheses are counted before any is taken: `room` tokens lie before the refused one.
    refine .tooDeep (Nat.le_refl room) ht (hform limits rfl) fun heq => ?_
    obtain rfl : extra = 0 := by omega
    exact hform limits' heq.symm

omit hdepth hlook in
theorem inputs :
    Outcome limits limits' (alt (token .ident) (rule .argMap)) [] 0 n (inputs : Parser P _) inputs
      s := by
  refine peek ?_ fun t ht _ => by simp only [ht, and_self]
  cases hs : s.current.kind with
  | ident => exact (ident.map _).within fun _ => .left
  | lbrace => exact (argMap.map _).within fun _ => .right
  | _ =>
      refine unexpected (by simp) (by simp [hs]) ?_
      simpa using ⟨(viable_of_starts (r := .argMap) (k := .lbrace) rfl).right,
        (Derives.token .ident).viable.left⟩

theorem statement (s : TokenStream P) :
    Outcome limits limits' (rule .stmt) [] 0 limits.depth (statement limits) (statement limits')
      s := by
  have hvalue : ∀ s : TokenStream P, Outcome limits limits' (rule .assignable) [] 0 limits.depth
      (Parser.assignable limits limits.depth) (Parser.assignable limits' limits'.depth) s := by
    intro s
    have h := assignable hdepth hlook limits.depth s
    rwa [← hdepth] at h
  have hactor : ∀ s : TokenStream P, Outcome limits limits' (rule .actor) [] 0 limits.depth
      (Parser.actor limits.depth limits.depth) (Parser.actor limits'.depth limits'.depth) s := by
    intro s
    have h := (actor hdepth limits.depth s).mono (Nat.zero_le _) (Nat.le_refl _)
    rwa [← hdepth] at h
  refine peek ?_ fun t ht _ => by simp only [ht, and_self]
  cases hs : s.current.kind with
  | ident =>
      refine .produced (.nth 0 rfl (.produced ?_))
      exact ident.bind fun _ _ _ => expect rfl fun _ s => ((hvalue s).map _).last
  | print =>
      refine .produced (.nth 1 rfl (.produced (.nth 0 rfl ?_)))
      refine Outcome.mono (take hs rfl ?_) (Nat.zero_le 1) (Nat.le_succ _)
      exact (hactor _).bind fun _ _ _ => expect rfl fun _ _ => pure _
  | execute =>
      refine .produced (.nth 1 rfl (.produced (.nth 1 rfl ?_)))
      refine Outcome.mono (take hs rfl ?_) (Nat.zero_le 1) (Nat.le_succ _)
      exact (hactor _).bind fun _ _ _ => expect rfl fun _ _ => inputs.bind fun _ _ _ =>
        expect rfl fun _ _ => pure _
  | ret =>
      refine .produced (.nth 2 rfl (.produced ?_))
      exact (take hs rfl (ident.map _).last).mono (Nat.zero_le 1) (Nat.le_succ _)
  | _ => exact unexpected (by decide) (by rw [hs]; decide) fun k hk =>
      viable_of_starts (Rule.mem_first.1 hk)

theorem block (s : TokenStream P) :
    Outcome limits limits' (rule .stmtBlock) (Rule.first .stmt) 0 limits.depth (block limits)
      (block limits') s := by
  have hshort : ∀ (limits : Limits) (s : TokenStream P) st s',
      Rule.starts .stmt s.current.kind = true → line (Parser.statement limits) s = .ok (st, s') →
      s'.ahead.length < s.ahead.length := by
    intro limits s st s' _ h
    obtain ⟨ls, hls, hy⟩ := line_eq_ok.1 h
    obtain ⟨l, rest, rfl, -⟩ := starts_line st ls hls
    have hlen := hy.length_ahead
    simp only [List.length_cons] at hlen
    omega
  refine peek ?_ fun t _ ht => by simp only [ht, and_self]
  refine .produced (Outcome.map ?_ _)
  refine repeated (fun k => Rule.mem_first.symm) (by decide) (fun k hk => ?_) (hshort limits)
    (hshort limits') (fun s _ => ?_) s
  · exact (viable_of_starts (Rule.mem_first.1 hk)).first
  · exact (statement hdepth hlook s).bind fun _ _ _ => expect rfl fun _ _ => pure _

theorem function (s : TokenStream P) :
    Outcome limits limits' (rule .funDecl) [] 0 limits.depth (function limits) (function limits')
      s := by
  refine .produced (expect rfl fun _ _ => ident.bind fun _ _ _ => ?_)
  refine Outcome.within (identsInParens.bind fun _ _ _ => ?_) (within_append [_, _, _] _)
  exact expect rfl fun _ s => (block hdepth hlook s).close rfl (fun _ _ _ _ hj => hj) fun _ _ =>
    pure _

theorem programOf (s : TokenStream P) :
    Outcome limits limits' (row [star (rule .funDecl), rule .stmtBlock]) (Rule.first .stmt) 0
      limits.depth (programOf (Parser.statement limits)) (programOf (Parser.statement limits'))
      s := by
  have hshort : ∀ (limits : Limits) (s : TokenStream P) f s', (s.current.kind == .func) = true →
      Parser.function limits s = .ok (f, s') → s'.ahead.length < s.ahead.length := by
    intro limits s f s' _ h
    obtain ⟨ls, ⟨body, -, rfl⟩, hy⟩ := function_eq_ok.1 h
    have hlen := hy.length_ahead
    simp only [List.length_cons] at hlen
    omega
  have hfunctions : Outcome limits limits' (star (rule .funDecl)) [.func] 0 limits.depth
      (Parser.repeated (· == .func) (Parser.function limits))
      (Parser.repeated (· == .func) (Parser.function limits')) s := by
    refine repeated (by simp) (by simp) ?_ (hshort limits) (hshort limits')
      (fun s _ => function hdepth hlook s) s
    simpa using viable_of_starts (r := .funDecl) (k := .func) rfl
  exact hfunctions.bind fun _ s₁ _ => ((block hdepth hlook s₁).map _).last

end Limits

end Outcome

/-! ## Whole inputs -/

/-- How two parsers of a form end on a whole input under two limits. -/
inductive Ending (limits limits' : Limits) (f : Form) (p q : Parser P α) (s : TokenStream P) : Prop
  | accepts {r : α × TokenStream P} (hp : p s = .ok r) (hq : q s = .ok r)
  | refuses {us : List (Token P)} {s' : TokenStream P} {ks : List TokenKind}
      (h : Refusal f 0 p q s us s' ks)
  | faults {message : String} {pos : P} (hp : p s = .error ⟨.internal message, pos⟩)
      (hq : q s = .error ⟨.internal message, pos⟩)
      (cause : limits.lookahead ≤ 1 ∨ ∃ t ∈ s.ahead, ¬ t.Stands t.kind)
  | tooDeep {i : Nat} {t : Token P} (hi : limits.depth ≤ i)
      (ht : (s.ahead ++ [s.final])[i]? = some t)
      (hp : p s = .error ⟨.nesting limits.depth, t.pos⟩)
      (hq : limits.depth = limits'.depth → q s = .error ⟨.nesting limits.depth, t.pos⟩)

/-- At the end of the form, the input has to end as well. -/
theorem Outcome.spanning {limits limits' : Limits} {f : Form} {others : List TokenKind} {w : Nat}
    {p q : Parser P α} {s : TokenStream P}
    (h : Outcome limits limits' f others w limits.depth p q s) :
    Ending limits limits' (row [f, token .eof]) (spanning others p) (Parser.spanning others q)
      s := by
  cases h with
  | @passes a us s' h =>
      obtain ⟨hps, hqs⟩ := h.eq_ok
      by_cases hend : s'.current.kind = .eof
      · have hyes : expectEnd others s' = .ok ((), s') := by simp [expectEnd, hend]
        exact .accepts ((bind_of_eq_ok hps).trans (bind_of_eq_ok hyes))
          ((bind_of_eq_ok hqs).trans (bind_of_eq_ok hyes))
      · refine .refuses { h.refuses hend (fun _ hk => hk) fun u hu => ?_ with far := Nat.zero_le _ }
        have hno : expectEnd others u = .error (u.mismatch (others ++ [.eof])) := by
          simp [expectEnd, hu, Parser.unexpected]
        exact ⟨bind_of_eq_error hno, bind_of_eq_error hno⟩
  | refuses h => exact .refuses { h.bind fun _ => .first with far := Nat.zero_le _ }
  | faults hp hq cause => exact .faults (bind_of_eq_error hp) (bind_of_eq_error hq) cause
  | tooDeep hi ht hp hq =>
      exact .tooDeep hi ht (bind_of_eq_error hp) fun heq => bind_of_eq_error (hq heq)

theorem Ending.within {limits limits' : Limits} {f g : Form} {p q : Parser P α} {s : TokenStream P}
    (h : Ending limits limits' f p q s) (hfg : f.Within g) : Ending limits limits' g p q s := by
  cases h with
  | accepts hp hq => exact .accepts hp hq
  | refuses h => exact .refuses { h with viable := fun k hk => (h.viable k hk).within hfg }
  | faults hp hq cause => exact .faults hp hq cause
  | tooDeep hi ht hp hq => exact .tooDeep hi ht hp hq

section Entry

variable {limits limits' : Limits} (hle : limits.depth ≤ limits'.depth)
  (hlook : limits'.lookahead = limits.lookahead ∨ 2 ≤ limits.lookahead ∧ 2 ≤ limits'.lookahead)

include hle hlook

theorem ending_program (s : TokenStream P) :
    Ending limits limits' (rule .program) (program limits) (program limits') s := by
  have hdepth : limits'.depth = limits.depth + (limits'.depth - limits.depth) := by omega
  exact (Outcome.programOf hdepth hlook s).spanning.within fun ks h =>
    .rule (within_append [_, _] [_] ks h)

omit hlook in
theorem ending_actor (s : TokenStream P) :
    Ending limits limits' (row [rule .actor, token .eof]) (wholeActor limits) (wholeActor limits')
      s := by
  have hdepth : limits'.depth = limits.depth + (limits'.depth - limits.depth) := by omega
  have h := Outcome.actor hdepth limits.depth s
  rw [← hdepth] at h
  exact h.spanning

omit hlook in
theorem ending_expr (s : TokenStream P) :
    Ending limits limits' (row [rule .exp, token .eof]) (wholeExpr limits) (wholeExpr limits')
      s := by
  have hdepth : limits'.depth = limits.depth + (limits'.depth - limits.depth) := by omega
  have h := Outcome.expr hdepth limits.depth s
  rw [← hdepth] at h
  exact h.spanning

end Entry

end Parser

end ActorLang
