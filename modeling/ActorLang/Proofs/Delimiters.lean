import ActorLang.Token.Stream

/-!
# Delimiters and their partners

An opening delimiter is matched by its closer behind it if everything in between is balanced. A row
`LeavesOpen` the closers of its unmatched openers. This says nothing about how they are found. A run
over the row with a stack of missing closers finds them, as long as every closer that it meets is
the one on top; a row on which it does not get stuck has no closer without an opener.
-/

namespace ActorLang

namespace TokenKind

def closes (k : TokenKind) : Bool :=
  k = .rparen || k = .rbrace

/-- The rows in which every delimiter has its partner. -/
inductive Balanced : List TokenKind → Prop
  | nil : Balanced []
  | plain {k : TokenKind} {ks : List TokenKind} (ho : k.closer = none) (hc : k.closes = false)
      (h : Balanced ks) : Balanced (k :: ks)
  | pair {k c : TokenKind} {js ks : List TokenKind} (ho : k.closer = some c) (hjs : Balanced js)
      (hks : Balanced ks) : Balanced (k :: (js ++ c :: ks))

/-- A row has the partner of an opener in front of it, which is of the class `c`. -/
def Matches (c : TokenKind) (ks : List TokenKind) : Prop :=
  ∃ js rest, Balanced js ∧ ks = js ++ c :: rest

/-- The closers of the unmatched openers of a row, in the order of the openers. -/
inductive LeavesOpen : List TokenKind → List TokenKind → Prop
  | nil : LeavesOpen [] []
  | plain {k : TokenKind} {ks cs : List TokenKind} (ho : k.closer = none) (h : LeavesOpen ks cs) :
      LeavesOpen (k :: ks) cs
  | matched {k c : TokenKind} {ks cs : List TokenKind} (ho : k.closer = some c)
      (hc : Matches c ks) (h : LeavesOpen ks cs) : LeavesOpen (k :: ks) cs
  | unmatched {k c : TokenKind} {ks cs : List TokenKind} (ho : k.closer = some c)
      (hc : ¬ Matches c ks) (h : LeavesOpen ks cs) : LeavesOpen (k :: ks) (c :: cs)

theorem closer_of_closes {k : TokenKind} (h : k.closes = true) : k.closer = none := by
  cases k <;> first | rfl | cases h

theorem closes_of_closer {k c : TokenKind} (h : k.closer = some c) :
    k.closes = false ∧ c.closes = true := by
  cases k <;> cases h <;> exact ⟨rfl, rfl⟩

def Unmatched (ks : List TokenKind) (c : TokenKind) : Prop :=
  ∃ us k vs, ks = us ++ k :: vs ∧ k.closer = some c ∧ ¬ Matches c vs

theorem unmatched_cons {k c : TokenKind} {ks : List TokenKind} :
    Unmatched (k :: ks) c ↔ k.closer = some c ∧ ¬ Matches c ks ∨ Unmatched ks c := by
  constructor
  · rintro ⟨us, k', vs, heq, hk', hvs⟩
    cases us with
    | nil =>
        obtain ⟨rfl, rfl⟩ := List.cons.inj heq
        exact .inl ⟨hk', hvs⟩
    | cons u us =>
        obtain ⟨rfl, rfl⟩ := List.cons.inj heq
        exact .inr ⟨us, k', vs, rfl, hk', hvs⟩
  · rintro (⟨hk, hks⟩ | ⟨us, k', vs, rfl, hk', hvs⟩)
    · exact ⟨[], k, ks, rfl, hk, hks⟩
    · exact ⟨k :: us, k', vs, rfl, hk', hvs⟩

/-- The closers that are left are those of the unmatched openers. -/
theorem mem_iff_unmatched {ks cs : List TokenKind} (h : LeavesOpen ks cs) {c : TokenKind} :
    c ∈ cs ↔ Unmatched ks c := by
  induction h with
  | nil => simp [Unmatched]
  | plain ho h ih =>
      rw [unmatched_cons, ho]
      simpa using ih
  | matched ho hc h ih =>
      rw [unmatched_cons, ho]
      refine ih.trans ⟨.inr, ?_⟩
      rintro (⟨⟨⟩, hno⟩ | hopen)
      · exact absurd hc hno
      · exact hopen
  | unmatched ho hc h ih =>
      rw [unmatched_cons, ho, List.mem_cons]
      constructor
      · rintro (rfl | hmem)
        · exact .inl ⟨rfl, hc⟩
        · exact .inr (ih.1 hmem)
      · rintro (⟨⟨⟩, -⟩ | hopen)
        · exact .inl rfl
        · exact .inr (ih.2 hopen)

/-! ## Runs with a stack -/

/-- The missing closers behind a token, innermost first, unless it closes something else. -/
def nest? (k : TokenKind) (stack : List TokenKind) : Option (List TokenKind) :=
  if k.closes then if stack.head? = some k then some stack.tail else none
  else some (k.closer.toList ++ stack)

def nestAll? : List TokenKind → List TokenKind → Option (List TokenKind)
  | [], stack => some stack
  | k :: ks, stack => (nest? k stack).bind (nestAll? ks)

theorem nest?_eq_some {k : TokenKind} {stack stack' : List TokenKind} :
    nest? k stack = some stack' ↔
      k.closes = true ∧ stack = k :: stack' ∨
        k.closes = false ∧ stack' = k.closer.toList ++ stack := by
  unfold nest?
  cases hk : k.closes with
  | false => simp [eq_comm]
  | true =>
      cases stack with
      | nil => simp
      | cons c stack =>
          by_cases hc : c = k
          · simp [hc]
          · simp [hc]

theorem nest?_opener {k c : TokenKind} (h : k.closer = some c) (stack : List TokenKind) :
    nest? k stack = some (c :: stack) := by
  rw [nest?_eq_some]
  exact .inr ⟨(closes_of_closer h).1, by rw [h]; rfl⟩

theorem nest?_closer {k : TokenKind} (h : k.closes = true) (stack : List TokenKind) :
    nest? k (k :: stack) = some stack :=
  nest?_eq_some.2 (.inl ⟨h, rfl⟩)

theorem openAfter_of_nest? {k : TokenKind} {stack stack' : List TokenKind}
    (h : nest? k stack = some stack') : TokenStream.openAfter k stack = stack' := by
  rcases nest?_eq_some.1 h with ⟨hk, rfl⟩ | ⟨hk, rfl⟩
  · cases k <;> first | rfl | cases hk
  · cases k <;> first | rfl | cases hk

theorem nestAll?_append (xs ys stack : List TokenKind) :
    nestAll? (xs ++ ys) stack = (nestAll? xs stack).bind (nestAll? ys) := by
  induction xs generalizing stack with
  | nil => rfl
  | cons k xs ih =>
      simp only [List.cons_append, nestAll?, Option.bind_assoc]
      exact congrArg _ (funext ih)

/-- A balanced row leaves the stack as it was. -/
theorem nestAll?_balanced {ks : List TokenKind} (h : Balanced ks) (stack : List TokenKind) :
    nestAll? ks stack = some stack := by
  induction h generalizing stack with
  | nil => rfl
  | plain ho hc h ih =>
      have hstep : nest? _ stack = some stack := nest?_eq_some.2 (.inr ⟨hc, by rw [ho]; rfl⟩)
      rw [nestAll?, hstep, Option.bind_some, ih]
  | @pair k c js ks ho hjs hks ihjs ihks =>
      have hc := nest?_closer (closes_of_closer ho).2 stack
      rw [nestAll?, nest?_opener ho, Option.bind_some, nestAll?_append, ihjs, Option.bind_some,
        nestAll?, hc, Option.bind_some, ihks]

/-- A run either leaves a closer of the stack where it is, or it meets that closer once everything
above it is closed. -/
theorem nestAll?_cases {ks top stack stack' : List TokenKind} {c : TokenKind}
    (h : nestAll? ks (top ++ c :: stack) = some stack') :
    (∃ top', nestAll? ks top = some top' ∧ stack' = top' ++ c :: stack) ∨
      ∃ js rest, ks = js ++ c :: rest ∧ nestAll? js top = some [] ∧
        nestAll? rest stack = some stack' := by
  induction ks generalizing top with
  | nil =>
      obtain rfl : _ = stack' := Option.some.inj h
      exact .inl ⟨top, rfl, rfl⟩
  | cons k ks ih =>
      obtain ⟨next, hnext, h⟩ := Option.bind_eq_some_iff.1 h
      -- Unless the closer itself is met, the token does the same to the part above it.
      have hstep : ∀ top₁, nest? k top = some top₁ → next = top₁ ++ c :: stack →
          (∃ top', nestAll? (k :: ks) top = some top' ∧ stack' = top' ++ c :: stack) ∨
            ∃ js rest, k :: ks = js ++ c :: rest ∧ nestAll? js top = some [] ∧
              nestAll? rest stack = some stack' := by
        rintro top₁ hk rfl
        rcases ih h with ⟨top', htop, rfl⟩ | ⟨js, rest, rfl, hjs, hrest⟩
        · exact .inl ⟨top', by rw [nestAll?, hk, Option.bind_some, htop], rfl⟩
        · exact .inr ⟨k :: js, rest, rfl, by rw [nestAll?, hk, Option.bind_some, hjs], hrest⟩
      rcases nest?_eq_some.1 hnext with ⟨hk, htop⟩ | ⟨hk, rfl⟩
      · cases top with
        | nil =>
            obtain ⟨rfl, rfl⟩ := List.cons.inj htop
            exact .inr ⟨[], ks, rfl, rfl, h⟩
        | cons d top =>
            obtain ⟨rfl, rfl⟩ := List.cons.inj htop
            exact hstep top (nest?_closer hk top) rfl
      · exact hstep (k.closer.toList ++ top) (nest?_eq_some.2 (.inr ⟨hk, rfl⟩))
          (List.append_assoc ..).symm

/-- Induction along a run from an empty stack. An opener is never closed, or it is closed behind a
part on which the run ends with an empty stack. -/
theorem nestAll?_induction {motive : List TokenKind → List TokenKind → Prop} (nil : motive [] [])
    (plain : ∀ k ks stack, k.closer = none → k.closes = false → motive ks stack →
      motive (k :: ks) stack)
    (unmatched : ∀ k c ks stack, k.closer = some c → nestAll? ks [] = some stack →
      motive ks stack → motive (k :: ks) (stack ++ [c]))
    (matched : ∀ k c js rest stack, k.closer = some c → nestAll? js [] = some [] →
      motive js [] → motive rest stack → motive (k :: (js ++ c :: rest)) stack)
    {ks stack : List TokenKind} (h : nestAll? ks [] = some stack) : motive ks stack := by
  induction hn : ks.length using Nat.strongRecOn generalizing ks stack with
  | ind n ih =>
      subst hn
      cases ks with
      | nil =>
          obtain rfl := Option.some.inj h
          exact nil
      | cons k ks =>
          obtain ⟨next, hnext, h⟩ := Option.bind_eq_some_iff.1 h
          rcases nest?_eq_some.1 hnext with ⟨-, htop⟩ | ⟨hk, rfl⟩
          · cases htop
          · cases ho : k.closer with
            | none =>
                rw [ho] at h
                exact plain k ks stack ho hk (ih _ (Nat.lt_succ_self _) h rfl)
            | some c =>
                have hinner : nestAll? ks ([] ++ c :: []) = some stack := by rwa [ho] at h
                rcases nestAll?_cases hinner with ⟨top, htop, rfl⟩ | ⟨js, rest, rfl, hjs, hrest⟩
                · exact unmatched k c ks top ho htop (ih _ (Nat.lt_succ_self _) htop rfl)
                · apply matched k c js rest stack ho hjs
                  · refine ih _ ?_ hjs rfl
                    simp only [List.length_cons, List.length_append]
                    omega
                  · refine ih _ ?_ hrest rfl
                    simp only [List.length_cons, List.length_append]
                    omega

theorem balanced_of_nestAll? {ks : List TokenKind} (h : nestAll? ks [] = some []) :
    Balanced ks := by
  refine nestAll?_induction (motive := fun ks stack => stack = [] → Balanced ks)
    ?nil ?plain ?unmatched ?matched h rfl
  case nil => exact fun _ => .nil
  case plain => exact fun k ks stack ho hk ih hstack => .plain ho hk (ih hstack)
  case unmatched => simp
  case matched => exact fun k c js rest stack ho _ ihjs ih hstack => .pair ho (ihjs rfl) (ih hstack)

/-! ## What a run leaves on the stack -/

theorem not_matches_of_nestAll? {ks stack : List TokenKind} {c : TokenKind} (hc : c.closes = true)
    (h : nestAll? ks [] = some stack) : ¬ Matches c ks := by
  rintro ⟨js, rest, hjs, rfl⟩
  rw [nestAll?_append, nestAll?_balanced hjs, Option.bind_some, nestAll?] at h
  obtain ⟨next, hnext, -⟩ := Option.bind_eq_some_iff.1 h
  rcases nest?_eq_some.1 hnext with ⟨-, htop⟩ | ⟨hno, -⟩
  · cases htop
  · rw [hc] at hno
    cases hno

theorem LeavesOpen.balanced_append {js ks cs : List TokenKind} (hjs : Balanced js)
    (h : LeavesOpen ks cs) : LeavesOpen (js ++ ks) cs := by
  induction hjs generalizing ks with
  | nil => exact h
  | plain ho hc hjs ih => exact .plain ho (ih h)
  | @pair k c js is ho hjs his ihjs ihis =>
      have hplain : c.closer = none := closer_of_closes (closes_of_closer ho).2
      rw [List.cons_append, List.append_assoc, List.cons_append]
      exact .matched ho ⟨js, is ++ ks, hjs, rfl⟩ (ihjs (.plain hplain (ihis h)))

/-- A run from an empty stack ends with the closers of the unmatched openers. -/
theorem leavesOpen_of_nestAll? {ks stack : List TokenKind} (h : nestAll? ks [] = some stack) :
    LeavesOpen ks stack.reverse := by
  refine nestAll?_induction (motive := fun ks stack => LeavesOpen ks stack.reverse)
    ?nil ?plain ?unmatched ?matched h
  case nil => exact .nil
  case plain => exact fun k ks stack ho hk ih => .plain ho ih
  case unmatched =>
    intro k c ks stack ho hks ih
    rw [List.reverse_append, List.reverse_singleton, List.singleton_append]
    exact .unmatched ho (not_matches_of_nestAll? (closes_of_closer ho).2 hks) ih
  case matched =>
    intro k c js rest stack ho hjs _ ih
    have hbalanced := balanced_of_nestAll? hjs
    have hplain : c.closer = none := closer_of_closes (closes_of_closer ho).2
    exact .matched ho ⟨js, rest, hbalanced, rfl⟩ (.balanced_append hbalanced (.plain hplain ih))

end TokenKind

end ActorLang
