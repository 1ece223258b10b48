import ActorLang.Parser.Assignable
import ActorLang.Proofs.Parser.Actor

/-!
# Assigned values are read exactly

The form of an assigned value is chosen before it is read, by the first token behind a run of
parentheses and the token after it. Every row of an expression or an actor begins with such a run,
which its nesting bounds, so the choice can be read off the row: before a delimiter the parser
succeeds if and only if the stream yields a row of its result. A name alone is an expression, hence
an actor that is only a name needs a call around it.
-/

namespace ActorLang

variable {P : Type}

/-- A row begins with `n` opening parentheses, a token of another class `k`, and a token of the
class `next`, if there is one. -/
inductive Leaf.Led : List (Leaf P) → Nat → TokenKind → Option TokenKind → Prop
  | head {l : Leaf P} {ls : List (Leaf P)} {k : TokenKind} {next : Option TokenKind}
      (hk : l.kind = k) (hp : k ≠ .lparen) (hn : ls.head?.map Leaf.kind = next) :
      Led (l :: ls) 0 k next
  | paren {l : Leaf P} {ls : List (Leaf P)} {n : Nat} {k : TokenKind} {next : Option TokenKind}
      (hl : l.kind = .lparen) (h : Led ls n k next) : Led (l :: ls) (n + 1) k next

def Leaf.lead : List (Leaf P) → Option TokenKind
  | [] => none
  | l :: ls => if l.kind = .lparen then lead ls else some l.kind

namespace Leaf

theorem Led.lead_eq {ls : List (Leaf P)} {n : Nat} {k : TokenKind} {next : Option TokenKind}
    (h : Led ls n k next) : lead ls = some k := by
  induction h with
  | head hk hp hn => simp [lead, hk, hp]
  | paren hl h ih => simpa [lead, hl] using ih

theorem Led.append {ls : List (Leaf P)} {n : Nat} {k : TokenKind} {next : Option TokenKind}
    (h : Led ls n k next) (ms : List (Leaf P)) :
    Led (ls ++ ms) n k (next.or (ms.head?.map kind)) := by
  induction h with
  | @head l ls k next hk hp hn =>
      refine .head hk hp ?_
      cases ls with
      | nil => simp [← hn]
      | cons m ls => simp [← hn]
  | paren hl h ih => exact .paren hl ih

end Leaf

open Leaf TokenStream

/-- The first token of an expression behind parentheses; a name there is not called. -/
theorem Expr.led_leaves (e : Expr P) :
    ∃ n k next, Led e.leaves n k next ∧ n < e.depth ∧
      (k = .not ∨ k = .instanceOf ∨ k = .elementOf ∨ k = .ident ∧ next ≠ some .lparen) := by
  induction e with
  | not operand pos ih => exact ⟨0, _, _, .head rfl (by simp) rfl, by simp [depth], by simp⟩
  | instanceOf subject type pos =>
      exact ⟨0, _, _, .head rfl (by simp) rfl, by simp [depth], by simp⟩
  | elementOf subject verdicts pos =>
      exact ⟨0, _, _, .head rfl (by simp) rfl, by simp [depth], by simp⟩
  | named id => exact ⟨0, _, _, .head rfl (by simp) rfl, by simp [depth], by simp⟩
  | parens inner pos ih =>
      obtain ⟨n, k, next, h, hn, hk⟩ := ih
      refine ⟨n + 1, k, _, .paren rfl (h.append _), Nat.succ_lt_succ hn, ?_⟩
      cases next <;> simpa using hk
  | binary left op opPos right ihl ihr =>
      obtain ⟨n, k, next, h, hn, hk⟩ := ihl
      refine ⟨n, k, _, h.append _, Nat.lt_of_lt_of_le hn (Nat.le_max_left ..), ?_⟩
      cases next <;> simpa using hk

theorem Actor.kind_of_isName {a : Actor P} (h : a.isName = true) {l : Leaf P}
    {ls : List (Leaf P)} (hl : a.leaves .plain = l :: ls) : l.kind = .ident ∨ l.kind = .lparen := by
  cases a with
  | named id =>
      obtain ⟨rfl, -⟩ := List.cons.inj hl
      exact .inl rfl
  | parens inner pos =>
      obtain ⟨rfl, -⟩ := List.cons.inj hl
      exact .inr rfl
  | _ => cases h

/-- The first token of an actor behind parentheses. It is a name that is not called if and only if
the actor is a name and the row has no call around it. -/
theorem Actor.Spelling.led {room : Nat} {a : Actor P} {ls : List (Leaf P)}
    (h : a.Spelling room ls) :
    ∃ n k next, Led ls n k next ∧ n < room ∧ (k ≠ .ident → Rule.starts .actor k = true) ∧
      (k = .ident ∧ next ≠ some .lparen ↔ a.isName = true ∧ ls = a.leaves .plain) := by
  induction h with
  | @flat n a hflat =>
      cases a with
      | named id =>
          refine ⟨0, _, _, .head rfl (by simp) rfl, Nat.succ_pos n, fun _ => rfl, ?_⟩
          simp [Actor.isName, Actor.unparenthesized]
      | call name args =>
          refine ⟨0, _, _, .head rfl (by simp) rfl, Nat.succ_pos n, fun _ => rfl, ?_⟩
          simp [Actor.isName, Actor.unparenthesized, Script.plain]
      | identity | sequence | ifThenElse | iterate | parallel | parens => exact hflat.elim
      | _ =>
          refine ⟨0, _, _, .head rfl (by simp) rfl, Nat.succ_pos n, fun _ => rfl, ?_⟩
          simp [Actor.isName, Actor.unparenthesized]
  | @wrapped n a ls h ih =>
      refine ⟨0, _, _, .head rfl (by simp) rfl, Nat.succ_pos n, fun _ => rfl, ?_⟩
      constructor
      · rintro ⟨hk, -⟩
        cases hk
      · rintro ⟨hname, hls⟩
        have hk := Actor.kind_of_isName hname hls.symm
        simp at hk
  | @parens n a ls h pos ih =>
      obtain ⟨m, k, next, hl, hm, hstart, hiff⟩ := ih
      refine ⟨m + 1, k, _, .paren rfl (hl.append _), Nat.succ_lt_succ hm, hstart, ?_⟩
      have hnext : next.or (some .rparen) ≠ some .lparen ↔ next ≠ some .lparen := by
        cases next <;> simp
      have hname : (Actor.parens a pos).isName = a.isName := rfl
      simp only [List.head?_cons, Option.map_some, mark_kind, hnext, hiff, hname, Actor.leaves,
        List.cons.injEq, true_and, List.append_cancel_right_eq]
  | identity | sequence | ifThenElse | iterate | parallel =>
      refine ⟨0, _, _, .head rfl (by simp) rfl, Nat.succ_pos _, fun _ => rfl, ?_⟩
      simp [Actor.isName, Actor.unparenthesized]

/-- The rows that stand for an assigned value with room for that many levels of nesting. -/
def Assignable.Spelling (limits : Limits) (room : Nat) (v : Assignable P) (ls : List (Leaf P)) :
    Prop :=
  (limits.lookahead ≤ 1 → lead ls ≠ some .ident) ∧
    match v with
    | expression e => e.Normal ∧ e.depth ≤ room ∧ ls = e.leaves
    | artifact (.literal type source pos) => ls = source.factoryLeaves .artifactFactory type pos
    | artifact (.named _) => False
    | argMap m => m.items ≠ [] ∧ ls = m.leaves
    | actor a => a.Spelling room ls ∧ (a.isName = true → ls ≠ a.leaves .plain)
    | literal l => ls = [l.leaf]

def Assignable.form : Assignable P → Assignable.Form
  | expression _ => .expression
  | artifact _ => .artifact
  | argMap _ => .argMap
  | actor _ => .actor
  | literal _ => .literal

namespace Leaf

theorem Led.parenRun_eq {ls : List (Leaf P)} {n : Nat} {k : TokenKind} {next : Option TokenKind}
    (h : Led ls n k next) {limit room : Nat} (hn : n ≤ room) {s s' : TokenStream P}
    (hy : s.Yields ls s') : Parser.parenRun limit room s.ahead = .ok n := by
  induction h generalizing s room with
  | head hk hp hnext =>
      obtain ⟨s₁, ⟨t, rest, ha, ht, -⟩, -⟩ := hy
      have htk : t.kind ≠ .lparen := by rw [ht.kind, hk]; exact hp
      rw [ha]
      cases room <;> simp [Parser.parenRun, htk]
  | @paren l ls n k next hl h ih =>
      obtain ⟨s₁, ⟨t, rest, ha, ht, rfl⟩, hy⟩ := hy
      have htk : t.kind = .lparen := ht.kind.trans hl
      obtain ⟨room, rfl⟩ : ∃ r, room = r + 1 := ⟨room - 1, by omega⟩
      have hrest : rest = s.next.2.ahead := by rw [ahead_next, ha]; rfl
      simp only [Parser.parenRun, ha, htk, if_true, hrest, ih (Nat.le_of_succ_le_succ hn) hy]
      rfl

theorem Led.kindAt_eq {ls : List (Leaf P)} {n : Nat} {k : TokenKind} {next : Option TokenKind}
    (h : Led ls n k next) {s s' : TokenStream P} (hy : s.Yields ls s') :
    s.kindAt n = k ∧ s.kindAt (n + 1) = next.getD s'.current.kind := by
  induction h generalizing s with
  | @head l ls k next hk hp hnext =>
      obtain ⟨s₁, hg, hy⟩ := hy
      refine ⟨by rw [kindAt_zero, hg.current_kind, hk], ?_⟩
      rw [hg.kindAt_succ, kindAt_zero, ← hnext]
      cases ls with
      | nil =>
          obtain rfl : s₁ = s' := hy
          rfl
      | cons m ls =>
          obtain ⟨s₂, hg₂, -⟩ := hy
          simp [hg₂.current_kind]
  | paren hl h ih =>
      obtain ⟨s₁, hg, hy⟩ := hy
      rw [hg.kindAt_succ, hg.kindAt_succ]
      exact ih hy

end Leaf

namespace Parser

theorem get_bind {β : Type} (f : TokenStream P → Parser P β) (s : TokenStream P) :
    ((get : Parser P (TokenStream P)) >>= f) s = f s s := rfl

theorem lift_bind {α β : Type} {x : Except (ParseError P) α} {a : α} (h : x = .ok a)
    (f : α → Parser P β) (s : TokenStream P) : ((liftM x : Parser P α) >>= f) s = f a s := by
  subst h
  rfl

theorem lift_bind_eq_ok {α β : Type} {x : Except (ParseError P) α} {f : α → Parser P β}
    {s : TokenStream P} {r : β × TokenStream P} (h : ((liftM x : Parser P α) >>= f) s = .ok r) :
    ∃ a, x = .ok a ∧ f a s = .ok r := by
  cases x with
  | error e => cases h
  | ok a => exact ⟨a, rfl, h⟩

section Choice

variable {limits : Limits} {room n : Nat} {s : TokenStream P}
  (hrun : parenRun limits.depth room s.ahead = .ok n)

include hrun

theorem assignableForm_expression {k : TokenKind} (hk : s.kindAt n = k)
    (h : k = .not ∨ k = .instanceOf ∨ k = .elementOf) :
    assignableForm limits room s = .ok (.expression, s) := by
  rcases h with rfl | rfl | rfl <;>
    simp only [assignableForm, formBehind, get_bind, lift_bind hrun, hk, pure_apply]

theorem assignableForm_ident (hk : s.kindAt n = .ident) :
    assignableForm limits room s =
      if limits.lookahead ≤ 1 then
        fail (.internal (InternalFault.shortLookahead limits.lookahead).message) s
      else .ok (if s.kindAt (n + 1) = .lparen then .actor else .expression, s) := by
  simp only [assignableForm, formBehind, get_bind, lift_bind hrun, hk]
  split
  · rfl
  · split <;> rfl

theorem assignableForm_actor {k : TokenKind} (hk : s.kindAt n = k)
    (hstart : Rule.starts .actor k = true) (hident : k ≠ .ident) :
    assignableForm limits room s = .ok (.actor, s) := by
  simp only [assignableForm, formBehind, get_bind, lift_bind hrun, hk]
  split
  · exact absurd hstart (by decide)
  · exact absurd hstart (by decide)
  · exact absurd hstart (by decide)
  · exact absurd rfl hident
  · split
    · rfl
    · split
      · exact absurd hstart (by decide)
      · exact absurd hstart (by decide)
      · exact absurd hstart (by decide)
      · rfl

/-- Without parentheses in front, three classes begin a value that is neither an expression nor an
actor. -/
theorem assignableForm_other {k : TokenKind} {form : Assignable.Form} (hk : s.kindAt n = k)
    (hn : n = 0) (h : (k, form) ∈ [(TokenKind.artifactFactory, Assignable.Form.artifact),
      (.lbrace, .argMap), (.str, .literal)]) :
    assignableForm limits room s = .ok (form, s) := by
  subst hn
  simp only [List.mem_cons, List.not_mem_nil, or_false, Prod.mk.injEq] at h
  rcases h with ⟨rfl, rfl⟩ | ⟨rfl, rfl⟩ | ⟨rfl, rfl⟩ <;>
    simp [assignableForm, formBehind, get_bind, lift_bind hrun, hk]

end Choice

/-- Choosing a form takes no token. -/
theorem assignableForm_state {limits : Limits} {room : Nat} {s s' : TokenStream P}
    {form : Assignable.Form} (h : assignableForm limits room s = .ok (form, s')) : s = s' := by
  simp only [assignableForm, formBehind, get_bind] at h
  obtain ⟨n, -, h⟩ := lift_bind_eq_ok h
  generalize s.kindAt n = k at h
  split at h
  · exact (Prod.mk.inj (Except.ok.inj h)).2
  · exact (Prod.mk.inj (Except.ok.inj h)).2
  · exact (Prod.mk.inj (Except.ok.inj h)).2
  · split at h
    · simp at h
    · split at h <;> exact (Prod.mk.inj (Except.ok.inj h)).2
  · split at h
    · exact (Prod.mk.inj (Except.ok.inj h)).2
    · split at h
      · exact (Prod.mk.inj (Except.ok.inj h)).2
      · exact (Prod.mk.inj (Except.ok.inj h)).2
      · exact (Prod.mk.inj (Except.ok.inj h)).2
      · split at h
        · exact (Prod.mk.inj (Except.ok.inj h)).2
        · simp at h

section Row

variable {limits : Limits} {room n : Nat} {s s' s₁ : TokenStream P} {form : Assignable.Form}
  {ls : List (Leaf P)} {next : Option TokenKind}

/-- A name behind parentheses is an actor if it is called, else an expression. -/
theorem form_of_led_ident (hled : Led ls n .ident next) (hn : n ≤ room) (hy : s.Yields ls s')
    (hform : assignableForm limits room s = .ok (form, s₁)) :
    ¬ limits.lookahead ≤ 1 ∧
      form = if next.getD s'.current.kind = .lparen then .actor else .expression := by
  obtain ⟨hkind, hnext⟩ := hled.kindAt_eq hy
  rw [assignableForm_ident (hled.parenRun_eq hn hy) hkind, hnext] at hform
  split at hform
  · simp at hform
  · next hlook => exact ⟨hlook, (Prod.mk.inj (Except.ok.inj hform)).1.symm⟩

theorem lead_ne_ident {k : TokenKind} (hled : Led ls n k next) (hn : n ≤ room)
    (hy : s.Yields ls s') (hform : assignableForm limits room s = .ok (form, s₁)) :
    limits.lookahead ≤ 1 → lead ls ≠ some .ident := by
  intro hle hlead
  obtain rfl : k = .ident := by simpa [hled.lead_eq] using hlead
  exact (form_of_led_ident hled hn hy hform).1 hle

end Row

/-- The choice on a row of an assigned value is the form of that value. -/
theorem assignableForm_of_spelling {limits : Limits} {room : Nat} {s s' : TokenStream P}
    {v : Assignable P} {ls : List (Leaf P)} (h : v.Spelling limits room ls) (hy : s.Yields ls s')
    (hs : s'.current.kind = .delimiter) :
    assignableForm limits room s = .ok (v.form, s) := by
  obtain ⟨hlook, h⟩ := h
  cases v with
  | expression e =>
      obtain ⟨-, hd, rfl⟩ := h
      obtain ⟨n, k, next, hled, hn, hk⟩ := e.led_leaves
      have hrun : Parser.parenRun limits.depth room s.ahead = .ok n :=
        hled.parenRun_eq (by omega) hy
      obtain ⟨hkind, hnext⟩ := hled.kindAt_eq hy
      rcases hk with hk | hk | hk | ⟨rfl, hne⟩
      · exact assignableForm_expression hrun hkind (.inl hk)
      · exact assignableForm_expression hrun hkind (.inr (.inl hk))
      · exact assignableForm_expression hrun hkind (.inr (.inr hk))
      · rw [assignableForm_ident hrun hkind, if_neg fun hle => hlook hle hled.lead_eq, hnext,
          if_neg]
        · rfl
        · cases next with
          | none => simp [hs]
          | some k => simpa using hne
  | artifact a =>
      cases a with
      | named id => exact h.elim
      | literal type source pos =>
          subst h
          have hled : Led (source.factoryLeaves .artifactFactory type pos) 0 .artifactFactory _ :=
            .head rfl (by simp) rfl
          exact assignableForm_other (hled.parenRun_eq (Nat.zero_le _) hy) (hled.kindAt_eq hy).1 rfl
            (by simp [Assignable.form])
  | argMap m =>
      obtain ⟨-, rfl⟩ := h
      have hled : Led m.leaves 0 .lbrace _ := .head rfl (by simp) rfl
      exact assignableForm_other (hled.parenRun_eq (Nat.zero_le _) hy) (hled.kindAt_eq hy).1 rfl
        (by simp [Assignable.form])
  | literal l =>
      subst h
      have hled : Led [l.leaf] 0 .str _ := .head rfl (by simp) rfl
      exact assignableForm_other (hled.parenRun_eq (Nat.zero_le _) hy) (hled.kindAt_eq hy).1 rfl
        (by simp [Assignable.form])
  | actor a =>
      obtain ⟨h, hname⟩ := h
      obtain ⟨n, k, next, hled, hn, hstart, hiff⟩ := h.led
      have hrun : Parser.parenRun limits.depth room s.ahead = .ok n :=
        hled.parenRun_eq (by omega) hy
      obtain ⟨hkind, hnext⟩ := hled.kindAt_eq hy
      by_cases hk : k = .ident
      · subst hk
        have hlparen : next = some .lparen := by
          by_contra hne
          obtain ⟨hisname, hls⟩ := hiff.1 ⟨rfl, hne⟩
          exact hname hisname hls
        rw [assignableForm_ident hrun hkind, if_neg fun hle => hlook hle hled.lead_eq, hnext,
          hlparen]
        rfl
      · exact assignableForm_actor hrun hkind (hstart hk) hk

theorem assignable_eq_ok {limits : Limits} {room : Nat} {s s' : TokenStream P} {v : Assignable P}
    (hs : s'.current.kind = .delimiter) :
    assignable limits room s = .ok (v, s') ↔
      ∃ ls, v.Spelling limits room ls ∧ s.Yields ls s' := by
  constructor
  · intro h
    obtain ⟨s₁, form, hform, h⟩ := bind_eq_ok.1 h
    obtain rfl := assignableForm_state hform
    cases form with
    | expression =>
        obtain ⟨s₂, e, he, heq⟩ := bind_eq_ok.1 h
        obtain ⟨rfl, rfl⟩ : Assignable.expression e = v ∧ s₂ = s' := by simpa using heq
        have hr := exprAt_eq_ok.1 he
        obtain ⟨n, k, next, hled, hn, -⟩ := e.led_leaves
        have hlen : n ≤ room := Nat.le_of_lt (Nat.lt_of_lt_of_le hn hr.depth_le)
        exact ⟨e.leaves, ⟨lead_ne_ident hled hlen hr.yields hform, hr.normal, hr.depth_le, rfl⟩,
          hr.yields⟩
    | artifact =>
        obtain ⟨s₂, a, ha, heq⟩ := bind_eq_ok.1 h
        obtain ⟨rfl, rfl⟩ : Assignable.artifact a = v ∧ s₂ = s' := by simpa using heq
        have hy := artifact_eq_ok.1 ha
        cases a with
        | literal type source pos =>
            exact ⟨_, ⟨fun _ => by simp [lead, Reference.factoryLeaves], rfl⟩, hy⟩
        | named id =>
            have hled : Led [id.leaf] 0 .ident none := .head rfl (by simp) rfl
            have hform' := (form_of_led_ident hled (Nat.zero_le _) hy hform).2
            simp [hs] at hform'
    | argMap =>
        obtain ⟨s₂, m, hm, heq⟩ := bind_eq_ok.1 h
        obtain ⟨rfl, rfl⟩ : Assignable.argMap m = v ∧ s₂ = s' := by simpa using heq
        obtain ⟨hne, hy⟩ := argMap_eq_ok.1 hm
        exact ⟨_, ⟨fun _ => by simp [lead, ArgMap.leaves], hne, rfl⟩, hy⟩
    | actor =>
        obtain ⟨s₂, a, ha, heq⟩ := bind_eq_ok.1 h
        obtain ⟨rfl, rfl⟩ : Assignable.actor a = v ∧ s₂ = s' := by simpa using heq
        obtain ⟨ls, hls, hy, -⟩ := actor_eq_ok.1 ha
        obtain ⟨n, k, next, hled, hn, -, hiff⟩ := hls.led
        refine ⟨ls, ⟨lead_ne_ident hled (Nat.le_of_lt hn) hy hform, hls, ?_⟩, hy⟩
        intro hname heq
        obtain ⟨rfl, hnext⟩ := hiff.2 ⟨hname, heq⟩
        have hform' := (form_of_led_ident hled (Nat.le_of_lt hn) hy hform).2
        rw [if_neg] at hform'
        · cases hform'
        · cases next with
          | none => simp [hs]
          | some k => simpa using hnext
    | literal =>
        obtain ⟨s₂, l, hl, heq⟩ := bind_eq_ok.1 h
        obtain ⟨rfl, rfl⟩ : Assignable.literal l = v ∧ s₂ = s' := by simpa using heq
        exact ⟨_, ⟨fun _ => by simp [lead], rfl⟩, yields_singleton.2 (literal_eq_ok.1 hl)⟩
  · rintro ⟨ls, h, hy⟩
    refine (bind_of_eq_ok (assignableForm_of_spelling h hy hs)).trans ?_
    cases v with
    | expression e =>
        obtain ⟨-, hn, hd, rfl⟩ := h
        have hr : Expr.Read room .chain s e s' := ⟨hn, hd, by simp, hy, fun _ => by simp [hs]⟩
        exact bind_of_eq_ok (exprAt_eq_ok.2 hr)
    | artifact a =>
        cases a with
        | named id => exact h.2.elim
        | literal type source pos =>
            obtain ⟨-, rfl⟩ := h
            exact bind_of_eq_ok (artifact_eq_ok.2 hy)
    | argMap m =>
        obtain ⟨-, hne, rfl⟩ := h
        exact bind_of_eq_ok (argMap_eq_ok.2 ⟨hne, hy⟩)
    | actor a =>
        obtain ⟨-, ha, -⟩ := h
        exact bind_of_eq_ok (actor_eq_ok.2 (.of_spelling ha hy (by simp [hs])))
    | literal l =>
        obtain ⟨-, rfl⟩ := h
        exact bind_of_eq_ok (literal_eq_ok.2 (yields_singleton.1 hy))

end Parser

end ActorLang
