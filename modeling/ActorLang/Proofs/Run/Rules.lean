import ActorLang.Proofs.Run

/-!
# What a run of each rule can do

The parser of every rule of the grammar has the outcomes of that rule. Each statement follows the
definition of its parser, and the classes that an error lists are checked where they are listed.
-/

namespace ActorLang

variable {P α : Type}

namespace Parser

open TokenStream Form

/-! ## The loops of the parser -/

/-- A list goes on for as long as there are commas. -/
theorem itemsAfterComma_eq_rounds (item : Parser P α) (n : Nat) :
    itemsAfterComma item n = rounds (· == .comma) (take >>= fun _ => item) n := by
  induction n with
  | zero => rfl
  | succ n ih =>
      funext s
      simp only [Stepwise.itemsAfterComma, rounds, ih, nextIs_bind, peek_bind, bind_assoc]

def operation (operand : Parser P (Expr P)) : Parser P (BinOp × P × Expr P) := do
  let t ← take
  let op ← operator t
  let right ← operand
  pure (op, t.pos, right)

/-- Operators with their right operands behind an expression, grouped to the left. -/
def applyAll (left : Expr P) (ops : List (BinOp × P × Expr P)) : Expr P :=
  ops.foldl (fun e o => .binary e o.1 o.2.1 o.2.2) left

theorem operatorsAfter_eq_rounds (operand : Parser P (Expr P)) (n : Nat) (left : Expr P) :
    operatorsAfter operand n left =
      rounds (· == .binOp) (operation operand) n >>= fun ops => pure (applyAll left ops) := by
  induction n generalizing left with
  | zero => rfl
  | succ n ih =>
      funext s
      simp only [Stepwise.operatorsAfter, rounds, operation, ih, nextIs_bind, peek_bind, bind_assoc]
      by_cases h : s.current.kind = .binOp
      · simp [h, applyAll]
      · simp [h, applyAll]

namespace Outcome

variable {limits limits' : Limits} {f : Form} {n : Nat} {s : TokenStream P}

/-! ## Names, artifacts and argument maps -/

theorem word {k : TokenKind} (hk : k.plain = true) (g : Token P → α) :
    Outcome limits limits' (token k) [] 0 n (Parser.expect k >>= fun t => Pure.pure (g t))
      (Parser.expect k >>= fun t => Pure.pure (g t)) s :=
  (expect hk fun t _ => pure (g t)).alone

theorem ident : Outcome limits limits' (token .ident) [] 0 n (ident : Parser P _) ident s :=
  word rfl _

theorem identHere (hs : s.current.kind = .ident) :
    Outcome limits limits' (token .ident) [] 1 n (Parser.ident : Parser P _) Parser.ident s :=
  ((expectHere hs (take hs rfl (pure _))).mono (Nat.le_refl _) (Nat.le_succ _)).alone

theorem typeName {r : Rule} (hr : r.production = token .typeName) :
    Outcome limits limits' (rule r) [] 0 n (typeName : Parser P _) typeName s :=
  .produced (hr ▸ word rfl _)

theorem literal : Outcome limits limits' (token .str) [] 0 n (literal : Parser P _) literal s :=
  word rfl _

theorem quotedIdent :
    Outcome limits limits' (rule .quotedId) [] 0 n (quotedIdent : Parser P _) quotedIdent s :=
  .produced (expect rfl fun _ _ => ident.bind fun id _ _ => expect rfl fun _ _ => pure id)

theorem commaSeparated {item item' : Parser P α}
    (hshort : ∀ s a s', item s = .ok (a, s') → s'.ahead.length ≤ s.ahead.length)
    (hshort' : ∀ s a s', item' s = .ok (a, s') → s'.ahead.length ≤ s.ahead.length)
    (h : ∀ s, Outcome limits limits' f [] 0 n item item' s) :
    Outcome limits limits' (Form.commaList f) [.comma] 0 n (commaSeparated item)
      (commaSeparated item') s := by
  have hloop : ∀ item : Parser P α, Parser.commaSeparated item =
      item >>= fun a => Parser.repeated (· == .comma) (Parser.take >>= fun _ => item) >>= fun as =>
        Pure.pure (a :: as) := by
    intro item
    simp only [Stepwise.commaSeparated, Parser.repeated, itemsAfterComma_eq_rounds, bind_assoc]
  have hless : ∀ {item : Parser P α},
      (∀ s a s', item s = .ok (a, s') → s'.ahead.length ≤ s.ahead.length) →
      ∀ s a s', (s.current.kind == .comma) = true →
        (Parser.take >>= fun _ => item) s = .ok (a, s') → s'.ahead.length < s.ahead.length := by
    intro item hitem s a s' hs ha
    obtain ⟨s₁, t, ht, ha⟩ := take_bind_eq_ok (beq_iff_eq.1 hs) (by decide) ha
    have h₁ := (yields_singleton.2 ht).length_ahead
    have h₂ := hitem s₁ a s' ha
    simp only [List.length_singleton] at h₁
    omega
  rw [hloop item, hloop item']
  refine (h s).bind fun a s₁ _ => (Outcome.map ?_ _).last
  refine repeated (by simp) (by simp) ?_ (hless hshort) (hless hshort') (fun s hs => ?_) s₁
  · simpa using Viable.mark .comma [f]
  · refine Outcome.mono ?_ (Nat.zero_le 1) (Nat.le_succ n)
    exact take (List.mem_singleton.1 hs) rfl (h s.next.2).last

theorem idents : Outcome limits limits' (rule .idList) [.comma] 0 n (idents : Parser P _) idents
    s := by
  have hshort : ∀ (s : TokenStream P) a s', Parser.ident s = .ok (a, s') →
      s'.ahead.length ≤ s.ahead.length := by
    intro s a s' h
    have hlen := (yields_singleton.2 (ident_eq_ok.1 h)).length_ahead
    omega
  exact .produced (commaSeparated hshort hshort fun _ => ident)

theorem identsInParens :
    Outcome limits limits' (row [token .lparen, opt (rule .idList), token .rparen]) [] 0 n
      (identsInParens : Parser P _) identsInParens s := by
  refine expect rfl fun _ s => ifNext (fun hs => ?_) fun hs => ?_
  · have hids : Outcome limits limits' (opt (rule .idList)) [.comma] 0 n
        (Parser.idents : Parser P _) Parser.idents s :=
      idents.within fun _ => .optSome
    refine hids.close rfl (fun ids s₁ h j hj => ?_) fun ids _ => pure ids
    have hne : ids.isEmpty = false := by simpa using (idents_eq_ok.1 h).1
    simpa [hne] using hj
  · have hnone : Outcome limits limits' (opt (rule .idList)) [.ident] 0 n
        (Pure.pure [] : Parser P (List (Ident P))) (Pure.pure []) s := by
      refine .passes (a := []) ⟨⟨.nil s, by simp, Nat.zero_le _⟩, .optNone, by simpa using hs, ?_,
        fun t u ht _ => ?_⟩
      · intro k hk
        obtain rfl := List.mem_singleton.1 hk
        exact (viable_of_starts (r := .idList) rfl).left
      · obtain rfl := ht.unique (.nil t)
        exact ⟨rfl, rfl⟩
    refine hnone.close rfl (fun ids s₁ h j hj => ?_) fun ids _ => pure ids
    obtain ⟨rfl, -⟩ : [] = ids ∧ s = s₁ := by simpa using h
    simpa using hj

theorem reference :
    Outcome limits limits' (alt (token .ident) (token .str)) [] 0 n (reference : Parser P _)
      reference s := by
  refine peek ?_ fun t ht _ => by simp only [ht, and_self]
  cases hs : s.current.kind with
  | ident => exact (ident.map _).within fun _ => .left
  | str => exact (literal.map _).within fun _ => .right
  | _ =>
      refine unexpected (by simp) (by simp [hs]) ?_
      simpa using ⟨(Derives.token .ident).viable.left, (Derives.token .str).viable.right⟩

theorem typeAndSource {r : Rule} (hr : r.production = token .typeName) :
    Outcome limits limits'
      (row [rule r, token .comma, alt (token .ident) (token .str), token .rparen]) [] 0 n
      (typeAndSource : Parser P _) typeAndSource s :=
  (typeName hr).bind fun _ _ _ => expect rfl fun _ _ => reference.bind fun _ _ _ =>
    expect rfl fun _ _ => pure _

theorem artifact :
    Outcome limits limits' (rule .artifact) [] 0 n (artifact : Parser P _) artifact s := by
  refine peek ?_ fun t ht _ => by simp only [ht, and_self]
  cases hs : s.current.kind with
  | artifactFactory =>
      refine .produced (.nth 0 rfl ?_)
      exact (take hs rfl ((typeAndSource rfl).map _)).mono (Nat.zero_le _) (Nat.le_succ _)
  | ident => exact .produced (.nth 1 rfl (ident.map _))
  | _ => exact unexpected (by decide) (by rw [hs]; decide) fun k hk =>
      viable_of_starts (Rule.mem_first.1 hk)

theorem mapValue :
    Outcome limits limits' (choice (rule .artifact) [rule .artifactType, rule .quotedId]) [] 0 n
      (mapValue : Parser P _) mapValue s := by
  refine peek ?_ fun t ht _ => by simp only [ht, and_self]
  cases hs : s.current.kind with
  | artifactFactory | ident => exact .nth 0 rfl (artifact.map _)
  | typeName => exact .nth 1 rfl ((typeName rfl).map _)
  | quote => exact .nth 2 rfl (quotedIdent.map _)
  | _ =>
      refine unexpected (by simp) (by simp [hs]) ?_
      simp only [List.forall_mem_cons, List.not_mem_nil, false_imp_iff, implies_true, and_true]
      exact ⟨(viable_of_starts (r := .artifact) rfl).left,
        (viable_of_starts (r := .quotedId) rfl).right.right,
        (viable_of_starts (r := .artifact) rfl).left,
        (viable_of_starts (r := .artifactType) rfl).left.right⟩

theorem mapItem :
    Outcome limits limits' (rule .mapItem) [] 0 n (mapItem : Parser P _) mapItem s := by
  refine .produced (quotedIdent.bind fun key s₁ _ => .last (ifNext (fun hs => ?_) fun _ => ?_))
  · refine Outcome.within (Outcome.mono ?_ (Nat.zero_le 1) (Nat.le_succ n)) fun _ => .optSome
    exact take hs rfl (mapValue.map _).last
  · exact (pure _).within fun _ => .right

theorem argMap : Outcome limits limits' (rule .argMap) [] 0 n (argMap : Parser P _) argMap s := by
  have hshort : ∀ (s : TokenStream P) a s', Parser.mapItem s = .ok (a, s') →
      s'.ahead.length ≤ s.ahead.length := by
    intro s a s' h
    have hlen := (mapItem_eq_ok.1 h).1.length_ahead
    omega
  refine .produced (expect rfl fun t s => ?_)
  have hitems : Outcome limits limits' (rule .mapItemList) [.comma] 0 n
      (Parser.commaSeparated Parser.mapItem : Parser P _)
      (Parser.commaSeparated Parser.mapItem) s :=
    .produced (commaSeparated hshort hshort fun _ => mapItem)
  exact hitems.close rfl (fun _ _ _ _ hj => hj) fun _ _ => pure _

theorem mapInParens :
    Outcome limits limits' (row [token .lparen, rule .argMap, token .rparen]) [] 0 n
      (mapInParens : Parser P _) mapInParens s :=
  expect rfl fun _ _ => argMap.bind fun m _ _ => expect rfl fun _ _ => pure m

/-! ## Expressions -/

theorem verdict : Outcome limits limits' (token .verdict) [] 0 n (verdict : Parser P _) verdict
    s := by
  refine Outcome.alone ?_
  by_cases hs : s.current.kind = .verdict
  · refine Outcome.mono ?_ (Nat.zero_le 1) (Nat.le_succ n)
    refine expectHere hs (takeKnown hs (by decide) (fun h => ?_) fun h => ?_)
    · obtain ⟨v, hv⟩ := Option.ne_none_iff_exists'.1 (h.verdict rfl)
      simp only [hv]
      exact pure v
    · have hv : Verdict.ofText? s.current.text = none :=
        Decidable.not_not.1 fun hv => h ⟨hs, by simp, fun _ => hv⟩
      simp only [hv]
      exact ⟨_, rfl, rfl⟩
  · exact expectNot hs

theorem verdicts :
    Outcome limits limits' (rule .verdictList) [.comma] 0 n (verdicts : Parser P _) verdicts s := by
  have hshort : ∀ (s : TokenStream P) v s', Parser.verdict s = .ok (v, s') →
      s'.ahead.length ≤ s.ahead.length := by
    intro s v s' h
    have hlen := (yields_singleton.2 (verdict_eq_ok.1 h)).length_ahead
    omega
  exact .produced (commaSeparated hshort hshort fun _ => verdict)

theorem operation {operand operand' : Parser P (Expr P)}
    (h : ∀ s, Outcome limits limits' (rule .exp) [] 0 n operand operand' s)
    (hs : s.current.kind = .binOp) :
    Outcome limits limits' (row [token .binOp, rule .exp]) [] 0 (n + 1) (operation operand)
      (Parser.operation operand') s := by
  refine Outcome.mono ?_ (Nat.zero_le 1) (Nat.le_refl _)
  refine takeKnown hs (by decide) (fun hknown => ?_) fun hunknown => ?_
  · obtain ⟨op, hop⟩ := Option.ne_none_iff_exists'.1 (hknown.operator rfl)
    simp only [operator, hop, pure_bind]
    exact ((h _).map _).last
  · have hop : BinOp.ofText? s.current.text = none :=
      Decidable.not_not.1 fun hop => hunknown ⟨hs, fun _ => hop, by simp⟩
    simp only [operator, hop]
    exact ⟨_, rfl, rfl⟩

end Outcome

end Parser

def Tier.more : Tier → List TokenKind
  | .chain => [.binOp]
  | .operand => []

/-- How many tokens at the head of a row may decide between an expression and an actor: opening
parentheses, and a name behind them. -/
def Token.lead : List (Token P) → Nat
  | [] => 0
  | t :: ts =>
    match t.kind with
    | .lparen => lead ts + 1
    | .ident => 1
    | _ => 0

def TokenStream.lead (s : TokenStream P) : Nat :=
  Token.lead s.ahead

theorem TokenStream.lead_eq (s : TokenStream P) :
    s.lead = match s.current.kind with
      | .lparen => s.next.2.lead + 1
      | .ident => 1
      | _ => 0 := by
  rcases s with ⟨_ | ⟨t, rest⟩, final, _, hfinal⟩
  · simp [lead, current, Token.lead, hfinal]
  · rfl

/-- An expression with operators behind it is an expression. -/
theorem Form.within_exp :
    (seq (rule .exp) (star (row [token .binOp, rule .exp]))).Within (rule .exp) := by
  -- The rule for operators is left-recursive, so the operands join the expression one by one.
  have hstar : ∀ {g : Form} {js : List TokenKind}, g.Derives js →
      g = star (row [token .binOp, rule .exp]) →
      ∀ ks, (rule .exp).Derives ks → (rule .exp).Derives (ks ++ js) := by
    intro g js h
    induction h with
    | starNil =>
        intro _ ks hks
        rwa [List.append_nil]
    | @starCons f is js hf hs ihf ihs =>
        rintro ⟨⟩ ks hks
        rw [← List.append_assoc]
        refine ihs rfl _ (.rule (.nth 0 rfl ?_))
        exact .cons hks hf
    | _ => rintro ⟨⟩
  intro ks h
  cases h with
  | seq hf hs => exact hstar hs rfl _ hf

namespace Parser

open TokenStream Form

namespace Outcome

variable {limits limits' : Limits} {f : Form} {n : Nat} {s : TokenStream P}

section Nested

variable {p q : Tier → Parser P (Expr P)}
  (h : ∀ tier s, Outcome limits limits' (rule .exp) tier.more s.lead n (p tier) (q tier) s)

include h

theorem exprHead :
    Outcome limits limits' (rule .exp) [] s.lead (n + 1) (exprHead p) (exprHead q) s := by
  rw [lead_eq]
  refine peek ?_ fun t ht _ => by simp only [ht, and_self]
  cases hs : s.current.kind with
  | not =>
      have hexp := ((h .chain s.next.2).mono (Nat.zero_le _) (Nat.le_refl n)).forget
      refine Outcome.mono (.produced (.nth 1 rfl (take hs rfl ?_))) (Nat.zero_le 1) (Nat.le_refl _)
      exact (hexp.map _).last
  | instanceOf =>
      refine Outcome.mono (.produced (.nth 2 rfl (take hs rfl ?_))) (Nat.zero_le 1) (Nat.le_refl _)
      exact expect rfl fun _ _ => ident.bind fun _ _ _ => expect rfl fun _ _ =>
        (typeName rfl).bind fun _ _ _ => expect rfl fun _ _ => pure _
  | elementOf =>
      refine Outcome.mono (.produced (.nth 3 rfl (take hs rfl ?_))) (Nat.zero_le 1) (Nat.le_refl _)
      exact expect rfl fun _ _ => ident.bind fun _ _ _ => expect rfl fun _ _ =>
        expect rfl fun _ _ => verdicts.close rfl (fun _ _ _ _ hj => hj) fun _ _ =>
          expect rfl fun _ _ => pure _
  | ident => exact .produced (.nth 4 rfl ((identHere hs).map _))
  | lparen =>
      refine .produced (.nth 5 rfl (take hs rfl ?_))
      exact (h .chain s.next.2).close rfl (fun _ _ _ _ hj => hj) fun _ _ => pure _
  | _ => exact unexpected (by decide) (by rw [hs]; decide) fun k hk =>
      viable_of_starts (Rule.mem_first.1 hk)

variable
  (hp : ∀ tier s e s', p tier s = .ok (e, s') → s'.ahead.length ≤ s.ahead.length)
  (hq : ∀ tier s e s', q tier s = .ok (e, s') → s'.ahead.length ≤ s.ahead.length)

include hp hq

theorem exprOf (tier : Tier) :
    Outcome limits limits' (rule .exp) tier.more s.lead (n + 1) (exprOf p tier) (exprOf q tier)
      s := by
  cases tier with
  | operand => exact (exprHead h).map id
  | chain =>
      have hless : ∀ {operand : Parser P (Expr P)},
          (∀ s e s', operand s = .ok (e, s') → s'.ahead.length ≤ s.ahead.length) →
          ∀ s a s', (s.current.kind == .binOp) = true →
            Parser.operation operand s = .ok (a, s') → s'.ahead.length < s.ahead.length := by
        intro operand hoperand s a s' hs ha
        obtain ⟨s₁, t, ht, ha⟩ := take_bind_eq_ok (beq_iff_eq.1 hs) (by decide) ha
        obtain ⟨s₂, op, hop, ha⟩ := bind_eq_ok.1 ha
        obtain ⟨-, rfl⟩ := operator_eq_ok.1 hop
        obtain ⟨s₃, e, he, ha⟩ := bind_eq_ok.1 ha
        obtain ⟨-, rfl⟩ : _ ∧ s₃ = s' := by simpa using ha
        have h₁ := (yields_singleton.2 ht).length_ahead
        have h₂ := hoperand s₁ e s₃ he
        simp only [List.length_singleton] at h₁
        omega
      have hloop : ∀ r : Tier → Parser P (Expr P), Parser.exprOf r .chain =
          Parser.exprHead r >>= fun left =>
            Parser.repeated (· == .binOp) (Parser.operation (r .operand)) >>= fun ops =>
              Pure.pure (applyAll left ops) := by
        intro r
        simp only [Stepwise.exprOf, Parser.repeated, operatorsAfter_eq_rounds, bind_assoc]
      rw [hloop p, hloop q]
      refine Outcome.within ?_ within_exp
      refine (exprHead h).bind fun left s₁ _ => Outcome.map ?_ _
      refine repeated (by simp [Tier.more]) (by simp [Tier.more]) ?_ (hless (hp .operand))
        (hless (hq .operand)) (fun s hs => ?_) s₁
      · simpa [Tier.more] using Viable.mark .binOp [rule .exp]
      · exact operation (fun s => (h .operand s).mono (Nat.zero_le _) (Nat.le_refl n))
          (by simpa [Tier.more] using hs)

end Nested

section Limits

variable {extra : Nat} (hdepth : limits'.depth = limits.depth + extra)

include hdepth

/-- Under a higher limit the parser does the same, until the lower limit is met. -/
theorem exprAt (room : Nat) (tier : Tier) (s : TokenStream P) :
    Outcome limits limits' (rule .exp) tier.more s.lead room (exprAt limits.depth room tier)
      (exprAt limits'.depth (room + extra) tier) s := by
  have hshort : ∀ (limit room : Nat) (tier : Tier) (s : TokenStream P) e s',
      Parser.exprAt limit room tier s = .ok (e, s') → s'.ahead.length ≤ s.ahead.length := by
    intro limit room tier s e s' h
    have hlen := (exprAt_eq_ok.1 h).yields.length_ahead
    omega
  induction room generalizing tier s with
  | zero =>
      refine tooDeepHere fun heq => ?_
      obtain rfl : extra = 0 := by omega
      rw [heq]
      rfl
  | succ room ih =>
      rw [Nat.succ_add]
      exact exprOf ih (hshort _ _) (hshort _ _) tier

theorem expr (room : Nat) (s : TokenStream P) :
    Outcome limits limits' (rule .exp) [.binOp] s.lead room (expr limits.depth room)
      (expr limits'.depth (room + extra)) s :=
  exprAt hdepth room .chain s

end Limits

/-! ## Actors -/

section Nested

variable {a a' : Parser P (Actor P)} {e e' : Parser P (Expr P)}
  (h : ∀ s, Outcome limits limits' (rule .actor) [] 0 n a a' s)

include h

theorem actorPair :
    Outcome limits limits' (row [rule .actor, token .comma, rule .actor, token .rparen]) [] 0 n
      (actorPair a) (actorPair a') s :=
  (h s).bind fun _ _ _ => expect rfl fun _ s => (h s).bind fun _ _ _ => expect rfl fun _ _ => pure _

omit h in
/-- An actor or something that a token of another class begins. -/
theorem actorOr {k : TokenKind} {p q : Parser P α} (hs : s.current.kind ≠ k)
    (hp : Outcome limits limits' f [] 0 n p q s)
    (hactor : ∀ j, Rule.starts .actor j = true → f.Viable [j]) (hk : f.Viable [k]) :
    Outcome limits limits' f [] 0 n
      (Parser.peek >>= fun t => if Rule.starts .actor t.kind = true then p
        else Parser.unexpected (Rule.first .actor ++ [k]))
      (Parser.peek >>= fun t => if Rule.starts .actor t.kind = true then q
        else Parser.unexpected (Rule.first .actor ++ [k])) s := by
  refine peek (ite (fun _ => hp) fun hstart => ?_) fun t ht _ => by simp only [ht, and_self]
  refine unexpected (by simp) ?_ fun j hj => ?_
  · rw [List.mem_append, List.mem_singleton, Rule.mem_first]
    exact not_or.2 ⟨hstart, hs⟩
  · rcases List.mem_append.1 hj with hj | hj
    · exact hactor j (Rule.mem_first.1 hj)
    · obtain rfl := List.mem_singleton.1 hj
      exact hk

theorem factoryActor (pos : P) :
    Outcome limits limits'
      (alt (row [rule .actorType, token .comma, alt (token .ident) (token .str), token .rparen])
        (row [rule .actor, token .rparen])) [] 0 n (factoryActor a pos) (factoryActor a' pos)
      s := by
  refine ifNext (fun _ => ?_) fun hs => actorOr hs ?_ (fun j hj => ?_) ?_
  · exact ((typeAndSource rfl).map _).within fun _ => .left
  · refine Outcome.within ?_ fun _ => .right
    exact (h s).bind fun _ _ _ => expect rfl fun _ _ => pure _
  · exact (viable_of_starts hj).first.right
  · exact (viable_of_starts (r := .actorType) rfl).first.left

theorem identityTarget (pos : P) :
    Outcome limits limits' (alt (rule .actor) (rule .argMap)) [] 0 n (identityTarget a pos)
      (identityTarget a' pos) s := by
  refine ifNext (fun _ => ?_) fun hs => actorOr hs ?_ (fun j hj => ?_) ?_
  · exact (argMap.map _).within fun _ => .right
  · exact ((h s).map _).within fun _ => .left
  · exact (viable_of_starts hj).left
  · exact (viable_of_starts (r := .argMap) rfl).right

end Nested

theorem functionCall (hs : s.current.kind = .ident) :
    Outcome limits limits' (row [token .ident, token .lparen, opt (rule .idList), token .rparen]) []
      1 n (functionCall : Parser P _) functionCall s :=
  (identHere hs).bind fun _ _ _ => identsInParens.map _

theorem joiner (pos : P) :
    Outcome limits limits' (row [token .lparen, rule .artifactType, token .comma, rule .argMap,
      token .comma, rule .quotedId, token .rparen]) [] 0 n (joiner pos) (joiner pos) s :=
  expect rfl fun _ _ => (typeName rfl).bind fun _ _ _ => expect rfl fun _ _ =>
    argMap.bind fun _ _ _ => expect rfl fun _ _ => quotedIdent.bind fun _ _ _ =>
      expect rfl fun _ _ => pure _

/-- One case for each alternative of the rule; what the alternatives share is how they end. -/
theorem actorOf {a a' : Parser P (Actor P)} {e e' : Parser P (Expr P)}
    (h : ∀ s, Outcome limits limits' (rule .actor) [] s.lead n a a' s)
    (he : ∀ s, Outcome limits limits' (rule .exp) [.binOp] s.lead n e e' s) :
    Outcome limits limits' (rule .actor) [] s.lead (n + 1) (actorOf a e) (actorOf a' e') s := by
  have h₀ : ∀ s, Outcome limits limits' (rule .actor) [] 0 n a a' s :=
    fun s => (h s).mono (Nat.zero_le _) (Nat.le_refl n)
  have he₀ : ∀ s, Outcome limits limits' (rule .exp) [.binOp] 0 n e e' s :=
    fun s => (he s).mono (Nat.zero_le _) (Nat.le_refl n)
  have hutility : ∀ {p q : Parser P (Actor P)},
      Outcome limits limits' (Rule.production .utilityActor) [] 1 (n + 1) p q s →
      Outcome limits limits' (rule .actor) [] 0 (n + 1) p q s := fun hp =>
    (hp.produced.nth 3 rfl).produced.mono (Nat.zero_le 1) (Nat.le_refl _)
  rw [lead_eq]
  refine peek ?_ fun t ht _ => by simp only [ht, and_self]
  cases hs : s.current.kind with
  | actorFactory =>
      refine Outcome.mono ?_ (Nat.zero_le 1) (Nat.le_refl _)
      refine Outcome.within (take hs rfl (factoryActor h₀ _).last) fun ks hks => ?_
      -- The two forms behind the keyword are two alternatives of the rule.
      cases hks with
      | seq hk hrow =>
          cases hrow with
          | seq halt hnil =>
              cases hnil
              rw [List.append_nil]
              cases halt with
              | left hf => exact .rule (.nth 0 rfl (.cons hk hf))
              | right hf => exact .rule (.nth 1 rfl (.cons hk hf))
  | ident =>
      by_cases hnext : s.kindAt 1 = .lparen
      · refine Outcome.congr (.produced (.nth 2 rfl (functionCall hs))) fun t _ ht => ?_
        simp [ht 1 (Nat.le_refl 1), hnext]
      · refine Outcome.congr (.produced (.nth 8 rfl ((identHere hs).map .named))) fun t _ ht => ?_
        simp [ht 1 (Nat.le_refl 1), hnext]
  | joiner => exact hutility (.nth 0 rfl (take hs rfl (joiner _)))
  | copy => exact hutility (.nth 1 rfl (take hs rfl (mapInParens.map _)))
  | rename => exact hutility (.nth 2 rfl (take hs rfl (mapInParens.map _)))
  | testSpecToSpec => exact hutility (.nth 3 rfl (take hs rfl (pure _)).alone)
  | specToTestSpec => exact hutility (.nth 4 rfl (take hs rfl (pure _)).alone)
  | identity =>
      refine hutility (.nth 5 rfl (take hs rfl ?_))
      exact expect rfl fun _ _ => (identityTarget h₀ _).bind fun _ _ _ =>
        expect rfl fun _ _ => pure _
  | sequence =>
      refine Outcome.mono (.produced (.nth 4 rfl (take hs rfl ?_))) (Nat.zero_le 1) (Nat.le_refl _)
      exact expect rfl fun _ _ => (actorPair h₀).map _
  | parallel =>
      refine Outcome.mono (.produced (.nth 7 rfl (take hs rfl ?_))) (Nat.zero_le 1) (Nat.le_refl _)
      exact expect rfl fun _ _ => (actorPair h₀).map _
  | ite =>
      refine Outcome.mono (.produced (.nth 5 rfl (take hs rfl ?_))) (Nat.zero_le 1) (Nat.le_refl _)
      exact expect rfl fun _ s => (he₀ s).close rfl (fun _ _ _ _ hj => hj) fun _ _ =>
        (actorPair h₀).map _
  | iterate =>
      refine Outcome.mono (.produced (.nth 6 rfl (take hs rfl ?_))) (Nat.zero_le 1) (Nat.le_refl _)
      exact expect rfl fun _ _ => quotedIdent.bind fun _ _ _ => expect rfl fun _ s =>
        (h₀ s).bind fun _ _ _ => expect rfl fun _ _ => pure _
  | lparen =>
      refine .produced (.nth 9 rfl (take hs rfl ?_))
      exact (h s.next.2).bind fun _ _ _ => expect rfl fun _ _ => pure _
  | _ => exact unexpected (by decide) (by rw [hs]; decide) fun k hk =>
      viable_of_starts (Rule.mem_first.1 hk)

theorem actor {extra : Nat} (hdepth : limits'.depth = limits.depth + extra) (room : Nat)
    (s : TokenStream P) :
    Outcome limits limits' (rule .actor) [] s.lead room (actor limits.depth room)
      (actor limits'.depth (room + extra)) s := by
  induction room generalizing s with
  | zero =>
      refine tooDeepHere fun heq => ?_
      obtain rfl : extra = 0 := by omega
      rw [heq]
      rfl
  | succ room ih =>
      rw [Nat.succ_add]
      exact actorOf ih (expr hdepth room)

end Outcome

end Parser

end ActorLang
