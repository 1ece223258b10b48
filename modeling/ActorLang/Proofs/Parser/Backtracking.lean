import ActorLang.Proofs.Run.Program

/-!
# Prediction and backtracking

The form of an assigned value is predicted from a few tokens, and only the parser of that form is
run. The grammar orders the forms instead: all of them are tried at the same place, and the first
one that gets to the delimiter is meant. As long as a level of nesting is left, the two agree, so
that no value is refused because another form was predicted. Where none is left, a name alone is
still predicted to be an expression, and the limit refuses it, while trying would go on to the
artifacts.
-/

namespace ActorLang

variable {P α β : Type}

def Assignable.Form.all : List Assignable.Form :=
  [.expression, .artifact, .argMap, .actor, .literal]

theorem Assignable.Form.mem_all (form : Assignable.Form) : form ∈ all := by
  cases form <;> decide

def Expr.enclosed (id : Ident P) : List P → Expr P
  | [] => .named id
  | pos :: places => .parens (enclosed id places) pos

theorem Expr.normal_enclosed (id : Ident P) (places : List P) : (enclosed id places).Normal := by
  induction places with
  | nil => trivial
  | cons pos places ih => exact ih

theorem Expr.depth_enclosed (id : Ident P) (places : List P) :
    (enclosed id places).depth = places.length + 1 := by
  induction places with
  | nil => rfl
  | cons pos places ih => simp [enclosed, depth, ih]

/-- An actor that is only a name is also an expression, with the same row and no more levels. -/
theorem Actor.Spelling.exists_expr {room : Nat} {a : Actor P} {ls : List (Leaf P)}
    (h : a.Spelling room ls) (hname : a.isName = true) (hls : ls = a.leaves .plain) :
    ∃ e : Expr P, e.Normal ∧ e.depth ≤ room ∧ e.leaves = ls := by
  induction h with
  | @flat n a hflat =>
      cases a with
      | named id => exact ⟨.named id, trivial, Nat.le_add_left 1 n, rfl⟩
      | parens => exact hflat.elim
      | _ => cases hname
  | wrapped h ih =>
      have hkind := Actor.kind_of_isName hname hls.symm
      simp at hkind
  | @parens n a ls h pos ih =>
      have hinner : ls = a.leaves .plain := by simpa [Actor.leaves] using hls
      obtain ⟨e, he, hdepth, hleaves⟩ := ih hname hinner
      exact ⟨.parens e pos, he, Nat.succ_le_succ hdepth, by rw [Expr.leaves, hleaves]⟩
  | identity | sequence | ifThenElse | iterate | parallel => cases hname

namespace Parser

open TokenStream Leaf

theorem bind_pure_eq_ok {p : Parser P α} {f : α → β} {s s' : TokenStream P} {b : β} :
    (p >>= fun a => pure (f a)) s = .ok (b, s') ↔ ∃ a, p s = .ok (a, s') ∧ f a = b := by
  rw [bind_pure_comp, map_eq_ok]

/-- What a parser reads from a stream, if it gets to a delimiter. -/
def upToDelimiter (p : Parser P α) (s : TokenStream P) : Option (α × TokenStream P) :=
  match p s with
  | .ok (a, s') => if s'.current.kind = .delimiter then some (a, s') else none
  | .error _ => none

def alternative (limits : Limits) (room : Nat) (form : Assignable.Form) :
    Parser P (Assignable P) :=
  assignableAs (expr limits.depth room) (actor limits.depth room) form

/-- Tries all forms in their order. The first value that ends before a delimiter counts. -/
def backtracked (limits : Limits) (room : Nat) (s : TokenStream P) :
    Option (Assignable P × TokenStream P) :=
  Assignable.Form.all.findSome? fun form => upToDelimiter (alternative limits room form) s

theorem upToDelimiter_eq_some {p : Parser P α} {s s' : TokenStream P} {a : α} :
    upToDelimiter p s = some (a, s') ↔ p s = .ok (a, s') ∧ s'.current.kind = .delimiter := by
  unfold upToDelimiter
  split
  case h_1 b s₁ h =>
    rw [h, Except.ok.injEq]
    by_cases hs : s₁.current.kind = .delimiter
    · rw [if_pos hs, Option.some.injEq]
      constructor
      · rintro ⟨⟩
        exact ⟨rfl, hs⟩
      · exact fun h => h.1
    · rw [if_neg hs]
      constructor
      · rintro ⟨⟩
      · rintro ⟨⟨⟩, hs'⟩
        exact absurd hs' hs
  case h_2 e h => simp [h]

section Backtracked

variable {limits : Limits} {room : Nat} {s s' : TokenStream P} {form : Assignable.Form}
  {v : Assignable P} {r : Assignable P × TokenStream P}

/-- What the search finds is read by one of the alternatives. -/
theorem exists_alternative (h : backtracked limits room s = some r) :
    ∃ form, upToDelimiter (alternative limits room form) s = some r := by
  obtain ⟨form, -, hform⟩ := List.exists_of_findSome?_eq_some h
  exact ⟨form, hform⟩

theorem exists_backtracked (h : upToDelimiter (alternative limits room form) s = some r) :
    ∃ r', backtracked limits room s = some r' := by
  apply Option.isSome_iff_exists.1
  apply List.findSome?_isSome_iff.2
  exact ⟨form, form.mem_all, by rw [h]; rfl⟩

theorem backtracked_of_expression
    (h : upToDelimiter (alternative limits room .expression) s = some r) :
    backtracked limits room s = some r := by
  simp only [backtracked, Assignable.Form.all, List.findSome?_cons, h]

/-- Before a delimiter a name alone is predicted to be an expression. -/
theorem assignable_of_name {id : Ident P} (hlook : 2 ≤ limits.lookahead) (h : s.Gives id.leaf s')
    (hs : s'.current.kind = .delimiter) :
    assignable limits room s = alternative limits room .expression s := by
  have hled : Led [id.leaf] 0 .ident none := .head rfl (by simp) rfl
  have hy : s.Yields [id.leaf] s' := yields_singleton.2 h
  have hform : assignableForm limits room s = .ok (.expression, s) := by
    obtain ⟨hkind, hnext⟩ := hled.kindAt_eq hy
    rw [assignableForm_ident (hled.parenRun_eq (Nat.zero_le _) hy) hkind, hnext,
      if_neg (by omega), if_neg (by simp [hs])]
  exact bind_of_eq_ok hform

/-- The predicted value comes from the alternative of its form, and is no name of an artifact. -/
theorem alternative_of_assignable (h : assignable limits room s = .ok (v, s'))
    (hs : s'.current.kind = .delimiter) :
    alternative limits room v.form s = .ok (v, s') ∧ ∀ id, v ≠ .artifact (.named id) := by
  obtain ⟨ls, hls, hy⟩ := (assignable_eq_ok hs).1 h
  constructor
  · exact (bind_of_eq_ok (assignableForm_of_spelling hls hy hs)).symm.trans h
  · rintro id rfl
    exact hls.2

variable (hlook : 2 ≤ limits.lookahead)

include hlook

theorem assignable_of_expression {e : Expr P}
    (h : alternative limits room .expression s = .ok (.expression e, s'))
    (hs : s'.current.kind = .delimiter) :
    assignable limits room s = .ok (.expression e, s') := by
  obtain ⟨e', he, ⟨⟩⟩ := bind_pure_eq_ok.1 h
  have hread := exprAt_eq_ok.1 he
  refine (assignable_eq_ok hs).2 ⟨e.leaves, ⟨fun hle => ?_, hread.normal, hread.depth_le, rfl⟩,
    hread.yields⟩
  omega

/-- What one of the forms reads up to a delimiter is what the prediction leads to, unless it is a
name. A name is an expression as well, if there is room for one. -/
theorem cases_of_alternative (h : alternative limits room form s = .ok (v, s'))
    (hs : s'.current.kind = .delimiter) :
    assignable limits room s = .ok (v, s') ∨
      (∃ e, alternative limits room .expression s = .ok (.expression e, s')) ∨
      room = 0 ∧ ∃ id, v = .artifact (.named id) ∧ s.Gives id.leaf s' := by
  have hfar : ∀ {p : Prop}, limits.lookahead ≤ 1 → p := fun hle => absurd hle (by omega)
  have hexpr : ∀ {e : Expr P}, e.Normal → e.depth ≤ room → s.Yields e.leaves s' →
      alternative limits room .expression s = .ok (.expression e, s') := by
    intro e hnormal hdepth hy
    have hread : Expr.Read room .chain s e s' :=
      ⟨hnormal, hdepth, by simp, hy, fun _ => by simp [hs]⟩
    exact bind_of_eq_ok (exprAt_eq_ok.2 hread)
  cases form with
  | expression =>
      obtain ⟨e, he, rfl⟩ := bind_pure_eq_ok.1 h
      exact .inr (.inl ⟨e, h⟩)
  | artifact =>
      obtain ⟨a, ha, rfl⟩ := bind_pure_eq_ok.1 h
      have hy := artifact_eq_ok.1 ha
      cases a with
      | literal type source pos =>
          exact .inl ((assignable_eq_ok hs).2 ⟨_, ⟨hfar, rfl⟩, hy⟩)
      | named id =>
          cases room with
          | zero => exact .inr (.inr ⟨rfl, id, rfl, yields_singleton.1 hy⟩)
          | succ room =>
              exact .inr (.inl ⟨.named id, hexpr trivial (Nat.le_add_left 1 room) hy⟩)
  | argMap =>
      obtain ⟨m, hm, rfl⟩ := bind_pure_eq_ok.1 h
      obtain ⟨hne, hy⟩ := argMap_eq_ok.1 hm
      exact .inl ((assignable_eq_ok hs).2 ⟨_, ⟨hfar, hne, rfl⟩, hy⟩)
  | actor =>
      obtain ⟨a, ha, rfl⟩ := bind_pure_eq_ok.1 h
      obtain ⟨ls, hls, hy, -⟩ := actor_eq_ok.1 ha
      by_cases hname : a.isName = true ∧ ls = a.leaves .plain
      · obtain ⟨e, hnormal, hdepth, rfl⟩ := hls.exists_expr hname.1 hname.2
        exact .inr (.inl ⟨e, hexpr hnormal hdepth hy⟩)
      · have hcalled : a.isName = true → ls ≠ a.leaves .plain := fun h heq => hname ⟨h, heq⟩
        exact .inl ((assignable_eq_ok hs).2 ⟨ls, ⟨hfar, hls, hcalled⟩, hy⟩)
  | literal =>
      obtain ⟨l, hl, rfl⟩ := bind_pure_eq_ok.1 h
      exact .inl ((assignable_eq_ok hs).2 ⟨_, ⟨hfar, rfl⟩, yields_singleton.2 (literal_eq_ok.1 hl)⟩)

/-- The one case in which the choice of a form fails and the search does not. -/
theorem assignable_noRoom {id : Ident P} (hroom : room = 0) (h : s.Gives id.leaf s')
    (hs : s'.current.kind = .delimiter) :
    assignable limits room s = .error ⟨.nesting limits.depth, id.pos⟩ := by
  subst hroom
  have hcurrent : s.current = ⟨.ident, id.name, id.pos⟩ := matches_word.1 h.current
  rw [assignable_of_name hlook h hs]
  refine bind_of_eq_error ?_
  simp [expr, Stepwise.exprAt, tooDeep, fail, hcurrent]

theorem assignable_iff_backtracked :
    assignable limits room s = .ok (v, s') ∧ s'.current.kind = .delimiter ↔
      backtracked limits room s = some (v, s') ∧
        ¬ (room = 0 ∧ ∃ id, v = .artifact (.named id)) := by
  constructor
  · rintro ⟨h, hs⟩
    obtain ⟨hform, hname⟩ := alternative_of_assignable h hs
    refine ⟨?_, fun ⟨_, id, hv⟩ => hname id hv⟩
    obtain ⟨⟨v', s''⟩, hr⟩ := exists_backtracked (upToDelimiter_eq_some.2 ⟨hform, hs⟩)
    obtain ⟨form, hform'⟩ := exists_alternative hr
    obtain ⟨h', hs'⟩ := upToDelimiter_eq_some.1 hform'
    -- Whatever is found first, prediction leads to a single value.
    rcases cases_of_alternative hlook h' hs' with heq | ⟨e, he⟩ | ⟨hroom, id, -, hid⟩
    · rw [hr, ← Except.ok.inj (heq.symm.trans h)]
    · rw [assignable_of_expression hlook he hs', Except.ok.injEq] at h
      rw [← h]
      exact backtracked_of_expression (upToDelimiter_eq_some.2 ⟨he, hs'⟩)
    · rw [assignable_noRoom hlook hroom hid hs'] at h
      cases h
  · rintro ⟨hr, hname⟩
    obtain ⟨form, hform⟩ := exists_alternative hr
    obtain ⟨h, hs⟩ := upToDelimiter_eq_some.1 hform
    refine ⟨?_, hs⟩
    rcases cases_of_alternative hlook h hs with heq | ⟨e, he⟩ | ⟨hroom, id, hv, -⟩
    · exact heq
    · -- Expressions are tried first.
      have hfirst := backtracked_of_expression (upToDelimiter_eq_some.2 ⟨he, hs⟩)
      obtain ⟨rfl, -⟩ : v = .expression e ∧ s' = s' := by simpa [hr] using hfirst
      exact assignable_of_expression hlook he hs
    · exact absurd ⟨hroom, id, hv⟩ hname

/-- Trying finds a name among the artifacts only where no level is left for the expression. -/
theorem gives_of_backtracked {id : Ident P}
    (h : backtracked limits room s = some (.artifact (.named id), s')) :
    room = 0 ∧ s.Gives id.leaf s' ∧ s'.current.kind = .delimiter := by
  obtain ⟨form, hform⟩ := exists_alternative h
  obtain ⟨hread, hs⟩ := upToDelimiter_eq_some.1 hform
  rcases cases_of_alternative hlook hread hs with heq | ⟨e, he⟩ | ⟨hroom, id', hv, hid⟩
  · exact absurd rfl ((alternative_of_assignable heq hs).2 id)
  · have hfirst := backtracked_of_expression (upToDelimiter_eq_some.2 ⟨he, hs⟩)
    simp [h] at hfirst
  · obtain rfl : id = id' := by simpa using hv
    exact ⟨hroom, hid, hs⟩

theorem assignable_enclosed {id : Ident P} {places : List P}
    (hy : s.Yields (Expr.enclosed id places).leaves s') (hs : s'.current.kind = .delimiter) :
    assignable limits room s = .ok (.expression (.enclosed id places), s') ↔
      places.length < room := by
  have hfar : ¬ limits.lookahead ≤ 1 := by omega
  have hnormal := Expr.normal_enclosed id places
  rw [assignable_eq_ok hs, ← Nat.succ_le_iff, Nat.succ_eq_add_one, ← Expr.depth_enclosed id]
  constructor
  · rintro ⟨ls, ⟨-, -, hdepth, -⟩, -⟩
    exact hdepth
  · intro hdepth
    exact ⟨_, ⟨fun hle => absurd hle hfar, hnormal, hdepth, rfl⟩, hy⟩

end Backtracked

/-- Prediction agrees with trying the forms in their order. The exception is a name where no level
of nesting is left. It is refused as an expression, although it could be an artifact. -/
theorem assignable_eq_backtracked {limits : Limits} (hlook : 2 ≤ limits.lookahead) (room : Nat)
    (s : TokenStream P) :
    (∀ v s', assignable limits room s = .ok (v, s') ∧ s'.current.kind = .delimiter ↔
      backtracked limits room s = some (v, s') ∧
        ¬ (room = 0 ∧ ∃ id, v = .artifact (.named id))) ∧
    (∀ id s', backtracked limits room s = some (.artifact (.named id), s') →
      assignable limits room s = .error ⟨.nesting limits.depth, id.pos⟩) ∧
    (∀ id places s', s.Yields (Expr.enclosed id places).leaves s' →
      s'.current.kind = .delimiter →
      (assignable limits room s = .ok (.expression (.enclosed id places), s') ↔
        places.length < room)) ∧
    (0 < room → ∀ form r, upToDelimiter (alternative limits room form) s = some r →
      ∃ v s', assignable limits room s = .ok (v, s') ∧ s'.current.kind = .delimiter) := by
  refine ⟨fun v s' => assignable_iff_backtracked hlook, ?_, ?_, ?_⟩
  · intro id s' h
    obtain ⟨hroom, hid, hs⟩ := gives_of_backtracked hlook h
    exact assignable_noRoom hlook hroom hid hs
  · intro id places s' hy hs
    exact assignable_enclosed hlook hy hs
  · intro hroom form r h
    obtain ⟨⟨v, s'⟩, hr⟩ := exists_backtracked h
    exact ⟨v, s', (assignable_iff_backtracked hlook).2 ⟨hr, fun h => by omega⟩⟩

/-- A name in `parens` pairs of parentheses, and the delimiter behind it. -/
def enclosedSample (parens : Nat) : TokenStream Unit where
  ahead := List.replicate parens ⟨.lparen, "(", ()⟩ ++
    ⟨.ident, "a", ()⟩ :: (List.replicate parens ⟨.rparen, ")", ()⟩ ++ [⟨.delimiter, ";", ()⟩])
  final := ⟨.eof, "", ()⟩
  unclosed := []
  final_kind := rfl

def enclosedSample.rest (parens : Nat) : TokenStream Unit :=
  { enclosedSample parens with ahead := [⟨.delimiter, ";", ()⟩] }

theorem assignable_enclosedSample :
    2 ≤ (Limits.mk 2 3).lookahead ∧
      assignable ⟨2, 3⟩ 3 (enclosedSample 2) =
        .ok (.expression (.enclosed ⟨"a", ()⟩ [(), ()]), enclosedSample.rest 2) := by
  have hlook : 2 ≤ (Limits.mk 2 3).lookahead := Nat.le_refl 2
  have hfirst : backtracked ⟨2, 3⟩ 3 (enclosedSample 2) =
      some (.expression (.enclosed ⟨"a", ()⟩ [(), ()]), enclosedSample.rest 2) := rfl
  have h := (assignable_eq_backtracked hlook 3 (enclosedSample 2)).1
  exact ⟨hlook, ((h _ _).2 ⟨hfirst, by simp⟩).1⟩

/-- Without a level left, the two part: a name alone is an artifact for the one, and refused by the
other. -/
theorem assignable_ne_backtracked_enclosedSample :
    2 ≤ (Limits.mk 2 0).lookahead ∧
      backtracked ⟨2, 0⟩ 0 (enclosedSample 0) =
        some (.artifact (.named ⟨"a", ()⟩), enclosedSample.rest 0) ∧
      (enclosedSample.rest 0).current.kind = .delimiter ∧
      assignable ⟨2, 0⟩ 0 (enclosedSample 0) = .error ⟨.nesting 0, ()⟩ ∧
      ¬ ∀ v s', assignable ⟨2, 0⟩ 0 (enclosedSample 0) = .ok (v, s') ∧
          s'.current.kind = .delimiter ↔
        backtracked ⟨2, 0⟩ 0 (enclosedSample 0) = some (v, s') := by
  have hfirst : backtracked ⟨2, 0⟩ 0 (enclosedSample 0) =
      some (.artifact (.named ⟨"a", ()⟩), enclosedSample.rest 0) := rfl
  have herror : assignable ⟨2, 0⟩ 0 (enclosedSample 0) = .error ⟨.nesting 0, ()⟩ := rfl
  refine ⟨Nat.le_refl 2, hfirst, rfl, herror, fun h => ?_⟩
  have hok := ((h _ _).2 hfirst).1
  rw [herror] at hok
  cases hok

end Parser

end ActorLang
