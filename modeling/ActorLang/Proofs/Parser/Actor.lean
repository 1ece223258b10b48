import ActorLang.Parser.Actor
import ActorLang.Proofs.Parser.Expr

/-!
# Actors are read exactly

The calls `ActorFactory.create(` around an actor leave no trace in the tree, so an actor does not
determine its row of tokens. `Actor.Spelling` relates an actor to all of its rows, together with a
bound on the nesting, to which each such call adds. The actor parser succeeds if and only if the
stream yields a row of its result, and a name alone is not followed by a parenthesis.
-/

namespace ActorLang

variable {P : Type}

namespace Actor

def Flat : Actor P → Prop
  | atomic .. | call .. | testSpecToSpec _ | specToTestSpec _ | named _ => True
  | joiner _ map _ _ | copy map _ | rename map _ | identityMap map _ => map.items ≠ []
  | identity .. | sequence .. | ifThenElse .. | iterate .. | parallel .. | parens .. => False

/-- The rows that stand for an actor nested at most `n` levels deep. -/
inductive Spelling : Nat → Actor P → List (Leaf P) → Prop
  | flat {n : Nat} {a : Actor P} (h : a.Flat) : Spelling (n + 1) a (a.leaves .plain)
  | wrapped {n : Nat} {a : Actor P} {ls : List (Leaf P)} (h : Spelling n a ls) :
      Spelling (n + 1) a (.mark .actorFactory :: (ls ++ [.mark .rparen]))
  | identity {n : Nat} {a : Actor P} {ls : List (Leaf P)} (h : Spelling n a ls) (pos : P) :
      Spelling (n + 1) (.identity a pos)
        (.key .identity pos :: .mark .lparen :: (ls ++ [.mark .rparen]))
  | sequence {n : Nat} {a b : Actor P} {ls ms : List (Leaf P)} (ha : Spelling n a ls)
      (hb : Spelling n b ms) (pos : P) :
      Spelling (n + 1) (.sequence a b pos)
        (.key .sequence pos :: .mark .lparen ::
          (ls ++ .mark .comma :: (ms ++ [.mark .rparen])))
  | ifThenElse {n : Nat} {e : Expr P} {a b : Actor P} {ls ms : List (Leaf P)} (he : e.Normal)
      (hd : e.depth ≤ n) (ha : Spelling n a ls) (hb : Spelling n b ms) (pos : P) :
      Spelling (n + 1) (.ifThenElse e a b pos)
        (.key .ite pos :: .mark .lparen :: (e.leaves ++ .mark .comma ::
          (ls ++ .mark .comma :: (ms ++ [.mark .rparen]))))
  | iterate {n : Nat} {a : Actor P} {ls : List (Leaf P)} (watched : Ident P)
      (ha : Spelling n a ls) (pos : P) :
      Spelling (n + 1) (.iterate watched a pos)
        (.key .iterate pos :: .mark .lparen ::
          (watched.quotedLeaves ++ .mark .comma :: (ls ++ [.mark .rparen])))
  | parallel {n : Nat} {a b : Actor P} {ls ms : List (Leaf P)} (ha : Spelling n a ls)
      (hb : Spelling n b ms) (pos : P) :
      Spelling (n + 1) (.parallel a b pos)
        (.key .parallel pos :: .mark .lparen ::
          (ls ++ .mark .comma :: (ms ++ [.mark .rparen])))
  | parens {n : Nat} {a : Actor P} {ls : List (Leaf P)} (h : Spelling n a ls) (pos : P) :
      Spelling (n + 1) (.parens a pos) (.key .lparen pos :: (ls ++ [.mark .rparen]))

/-- A stream yields a row of an actor; a name alone ends before anything but a parenthesis. -/
def Read (room : Nat) (s : TokenStream P) (a : Actor P) (s' : TokenStream P) : Prop :=
  ∃ ls, a.Spelling room ls ∧ s.Yields ls s' ∧
    ∀ id : Ident P, ls = [id.leaf] → s'.current.kind ≠ .lparen

theorem Spelling.starts {n : Nat} {a : Actor P} {ls : List (Leaf P)} (h : a.Spelling n ls) :
    ∃ l rest, ls = l :: rest ∧ Rule.starts .actor l.kind = true := by
  cases h with
  | @flat n a hflat =>
      cases a with
      | identity | sequence | ifThenElse | iterate | parallel | parens => exact hflat.elim
      | _ => exact ⟨_, _, rfl, rfl⟩
  | _ => exact ⟨_, _, rfl, rfl⟩

/-- An actor that another token must follow is read whatever that token is, as long as it is no
parenthesis. -/
theorem Read.of_spelling {room : Nat} {s s' : TokenStream P} {a : Actor P} {ls : List (Leaf P)}
    (h : a.Spelling room ls) (hy : s.Yields ls s') (hs : s'.current.kind ≠ .lparen) :
    Read room s a s' :=
  ⟨ls, h, hy, fun _ _ => hs⟩

end Actor

namespace Parser

open TokenStream Leaf

theorem functionCall_eq_ok {s s' : TokenStream P} {a : Actor P} :
    functionCall s = .ok (a, s') ↔
      ∃ name args, a = .call name args ∧ s.Yields (a.leaves .plain) s' := by
  constructor
  · intro h
    obtain ⟨s₁, name, hname, h⟩ := bind_eq_ok.1 h
    obtain ⟨s₂, args, hargs, he⟩ := bind_eq_ok.1 h
    obtain ⟨rfl, rfl⟩ : Actor.call name args = a ∧ s₂ = s' := by simpa using he
    exact ⟨name, args, rfl, .cons (ident_eq_ok.1 hname) (identsInParens_eq_ok.1 hargs)⟩
  · rintro ⟨name, args, rfl, s₁, hname, hargs⟩
    exact (bind_of_eq_ok (ident_eq_ok.2 hname)).trans
      (bind_of_eq_ok (identsInParens_eq_ok.2 hargs))

theorem joiner_eq_ok {s s' : TokenStream P} {pos : P} {a : Actor P} :
    joiner pos s = .ok (a, s') ↔
      ∃ type merge output, a = .joiner type merge output pos ∧ merge.items ≠ [] ∧
        s.Yields (mark .lparen :: type.leaf :: mark .comma ::
          (merge.leaves ++ mark .comma :: (output.quotedLeaves ++ [mark .rparen]))) s' := by
  constructor
  · intro h
    obtain ⟨s₁, t₁, h₁, h⟩ := expectOr_bind_eq_ok (by decide) h
    obtain ⟨s₂, type, htype, h⟩ := bind_eq_ok.1 h
    obtain ⟨s₃, t₃, h₃, h⟩ := expectOr_bind_eq_ok (by decide) h
    obtain ⟨s₄, merge, hm, h⟩ := bind_eq_ok.1 h
    obtain ⟨s₅, t₅, h₅, h⟩ := expectOr_bind_eq_ok (by decide) h
    obtain ⟨s₆, output, ho, h⟩ := bind_eq_ok.1 h
    obtain ⟨s₇, t₇, h₇, he⟩ := expectOr_bind_eq_ok (by decide) h
    obtain ⟨rfl, rfl⟩ : Actor.joiner type merge output pos = a ∧ s₇ = s' := by simpa using he
    obtain ⟨hne, hm⟩ := argMap_eq_ok.1 hm
    refine ⟨type, merge, output, rfl, hne, ?_⟩
    exact .cons h₁.mark (.cons (typeName_eq_ok.1 htype) (.cons h₃.mark (hm.append
      (.cons h₅.mark ((quotedIdent_eq_ok.1 ho).append (yields_singleton.2 h₇.mark))))))
  · rintro ⟨type, merge, output, rfl, hne, s₁, h₁, s₂, h₂, s₃, h₃, hy⟩
    obtain ⟨s₄, hm, s₅, h₅, hy⟩ := yields_append.1 hy
    obtain ⟨s₆, ho, h₇⟩ := yields_append.1 hy
    unfold joiner Stepwise.joiner
    rw [expect_bind_of_mark h₁ (by decide), bind_of_eq_ok (typeName_eq_ok.2 h₂),
      expect_bind_of_mark h₃ (by decide), bind_of_eq_ok (argMap_eq_ok.2 ⟨hne, hm⟩),
      expect_bind_of_mark h₅ (by decide), bind_of_eq_ok (quotedIdent_eq_ok.2 ho),
      expect_bind_of_mark (yields_singleton.1 h₇) (by decide)]
    rfl

section Nested

variable {actor : Parser P (Actor P)} {expr : Parser P (Expr P)} {room : Nat}
  (hactor : ∀ s a s', actor s = .ok (a, s') ↔ Actor.Read room s a s')

include hactor

/-- An actor and a token behind it that is no parenthesis. -/
theorem actorThen_eq_ok (others : List TokenKind) {k : TokenKind} (hk : k ≠ .eof)
    (hp : k ≠ .lparen) {β : Type} {f : Actor P → Parser P β} {s s' : TokenStream P} {b : β} :
    (actor >>= fun a => expectOr others k >>= fun _ => f a) s = .ok (b, s') ↔
      ∃ a ls s₁, a.Spelling room ls ∧ s.Yields (ls ++ [mark k]) s₁ ∧ f a s₁ = .ok (b, s') := by
  constructor
  · intro h
    obtain ⟨s₁, a, ha, h⟩ := bind_eq_ok.1 h
    obtain ⟨s₂, t, ht, h⟩ := expectOr_bind_eq_ok hk h
    obtain ⟨ls, hs, hy, -⟩ := (hactor _ _ _).1 ha
    exact ⟨a, ls, s₂, hs, hy.append (yields_singleton.2 ht.mark), h⟩
  · rintro ⟨a, ls, s₁, hs, hy, h⟩
    obtain ⟨s₂, hy, ht⟩ := yields_append.1 hy
    have ht := yields_singleton.1 ht
    have ha := (hactor _ _ _).2 (.of_spelling hs hy (by simpa [ht.current_kind] using hp))
    rw [bind_of_eq_ok ha, expectOr_bind_of_mark ht hk]
    exact h

theorem actorPair_eq_ok {s s' : TokenStream P} {a b : Actor P} :
    actorPair actor s = .ok ((a, b), s') ↔
      ∃ ls ms, a.Spelling room ls ∧ b.Spelling room ms ∧
        s.Yields (ls ++ mark .comma :: (ms ++ [mark .rparen])) s' := by
  have hpair : ∀ r, actorPair actor s = .ok r ↔
      (actor >>= fun a => expectOr [] .comma >>= fun _ =>
        actor >>= fun b => expectOr [] .rparen >>= fun _ => pure (a, b)) s = .ok r :=
    fun _ => Iff.rfl
  rw [hpair, actorThen_eq_ok hactor [] (by decide) (by decide)]
  simp only [actorThen_eq_ok hactor [] (k := .rparen) (by decide) (by decide)]
  constructor
  · rintro ⟨a', ls, s₁, ha, hy, b', ms, s₂, hb, hz, he⟩
    obtain ⟨⟨rfl, rfl⟩, rfl⟩ : (a' = a ∧ b' = b) ∧ s₂ = s' := by simpa using he
    refine ⟨ls, ms, ha, hb, ?_⟩
    simpa using hy.append hz
  · rintro ⟨ls, ms, ha, hb, hy⟩
    obtain ⟨s₁, hy, hz⟩ := yields_append.1
      (show s.Yields ((ls ++ [mark .comma]) ++ (ms ++ [mark .rparen])) s' by simpa using hy)
    exact ⟨a, ls, s₁, ha, hy, b, ms, s', hb, hz, rfl⟩

theorem spelling_of_factoryActor {s s₁ s' : TokenStream P} {t : Token P} {a : Actor P}
    (ht : s.Gives (.word .actorFactory t.text t.pos) s₁)
    (h : factoryActor actor t.pos s₁ = .ok (a, s')) :
    ∃ ls, a.Spelling (room + 1) ls ∧ s.Yields ls s' ∧ ls.length ≠ 1 := by
  simp only [Stepwise.factoryActor, nextIs_bind, beq_iff_eq] at h
  split at h
  · obtain ⟨s₂, ⟨type, source⟩, hsrc, he⟩ := bind_eq_ok.1 h
    obtain ⟨rfl, rfl⟩ : Actor.atomic type source t.pos = a ∧ s₂ = s' := by simpa using he
    exact ⟨_, .flat trivial, .cons ht.key (typeAndSource_eq_ok.1 hsrc), by
      simp [Actor.leaves, Reference.factoryLeaves]⟩
  · rw [peek_bind] at h
    split at h
    · obtain ⟨b, ls, s₂, hb, hy, he⟩ :=
        (actorThen_eq_ok hactor [] (by decide) (by decide)).1 h
      obtain ⟨rfl, rfl⟩ : b = a ∧ s₂ = s' := by simpa using he
      exact ⟨_, .wrapped hb, .cons ht.mark hy, by simp⟩
    · simp at h

theorem factoryActor_of_spelling {s s' : TokenStream P} {pos : P} {a : Actor P}
    {ls : List (Leaf P)} (h : a.Spelling room ls) (hy : s.Yields (ls ++ [mark .rparen]) s') :
    factoryActor actor pos s = .ok (a, s') := by
  obtain ⟨l, rest, rfl, hstart⟩ := h.starts
  have hk : s.current.kind = l.kind := by
    obtain ⟨_, hg, -⟩ := hy
    exact hg.current_kind
  have htype : s.current.kind ≠ .typeName := by
    rw [hk]
    rintro heq
    rw [heq] at hstart
    exact absurd hstart (by decide)
  simp only [Stepwise.factoryActor, nextIs_bind, beq_iff_eq]
  rw [if_neg htype, peek_bind, hk, if_pos hstart]
  exact (actorThen_eq_ok hactor [] (by decide) (by decide)).2
    ⟨a, _, s', h, hy, rfl⟩

theorem identityTarget_of_spelling {s s' : TokenStream P} {pos : P} {a : Actor P}
    {ls : List (Leaf P)} (h : a.Spelling room ls) (hy : s.Yields (ls ++ [mark .rparen]) s') :
    (identityTarget actor pos >>= fun r => expect .rparen >>= fun _ => pure r) s =
      .ok (.identity a pos, s') := by
  obtain ⟨l, rest, rfl, hstart⟩ := h.starts
  have hk : s.current.kind = l.kind := by
    obtain ⟨_, hg, -⟩ := hy
    exact hg.current_kind
  have hbrace : s.current.kind ≠ .lbrace := by
    rw [hk]
    rintro heq
    rw [heq] at hstart
    exact absurd hstart (by decide)
  obtain ⟨s₁, hya, hr⟩ := yields_append.1 hy
  have hr := yields_singleton.1 hr
  have ha := (hactor _ _ _).2 (.of_spelling h hya (by simp [hr.current_kind]))
  have htarget : identityTarget actor pos s = .ok (.identity a pos, s₁) := by
    simp only [Stepwise.identityTarget, nextIs_bind, beq_iff_eq]
    rw [if_neg hbrace, peek_bind, hk, if_pos hstart]
    exact bind_of_eq_ok ha
  rw [bind_of_eq_ok htarget, expect_bind_of_mark hr (by decide)]
  rfl

variable (hexpr : ∀ s e s', expr s = .ok (e, s') ↔ Expr.Read room .chain s e s')

include hexpr

theorem read_of_actorOf {s s' : TokenStream P} {a : Actor P}
    (h : actorOf actor expr s = .ok (a, s')) : Actor.Read (room + 1) s a s' := by
  simp only [Stepwise.actorOf, peek_bind] at h
  generalize hk : s.current.kind = k at h
  split at h
  case h_1 =>
    obtain ⟨s₁, t, ht, h⟩ := take_bind_eq_ok hk (by decide) h
    obtain ⟨ls, hls, hy, hlen⟩ := spelling_of_factoryActor hactor ht h
    exact ⟨ls, hls, hy, fun id hid => by simp [hid] at hlen⟩
  case h_2 =>
    simp only [aheadIs_bind, beq_iff_eq] at h
    split at h
    case isTrue =>
      obtain ⟨name, args, rfl, hy⟩ := functionCall_eq_ok.1 h
      exact ⟨_, .flat trivial, hy, by simp [Actor.leaves, Script.plain]⟩
    case isFalse hnext =>
      obtain ⟨id, hid, rfl⟩ : ∃ id, s.Gives id.leaf s' ∧ .named id = a := by
        simpa [map_eq_ok, ident_eq_ok] using h
      refine ⟨_, .flat trivial, yields_singleton.2 hid, fun _ _ => ?_⟩
      rwa [hid.kindAt_succ] at hnext
  case h_3 =>
    obtain ⟨s₁, t, ht, h⟩ := take_bind_eq_ok hk (by decide) h
    obtain ⟨type, merge, output, rfl, hne, hy⟩ := joiner_eq_ok.1 h
    exact ⟨_, .flat hne, .cons ht.key hy, by simp [Actor.leaves]⟩
  case h_4 =>
    obtain ⟨s₁, t, ht, h⟩ := take_bind_eq_ok hk (by decide) h
    obtain ⟨s₂, m, hm, he⟩ := bind_eq_ok.1 h
    obtain ⟨rfl, rfl⟩ : Actor.copy m t.pos = a ∧ s₂ = s' := by simpa using he
    obtain ⟨hne, hy⟩ := mapInParens_eq_ok.1 hm
    exact ⟨_, .flat hne, .cons ht.key hy, by simp [Actor.leaves]⟩
  case h_5 =>
    obtain ⟨s₁, t, ht, h⟩ := take_bind_eq_ok hk (by decide) h
    obtain ⟨s₂, m, hm, he⟩ := bind_eq_ok.1 h
    obtain ⟨rfl, rfl⟩ : Actor.rename m t.pos = a ∧ s₂ = s' := by simpa using he
    obtain ⟨hne, hy⟩ := mapInParens_eq_ok.1 hm
    exact ⟨_, .flat hne, .cons ht.key hy, by simp [Actor.leaves]⟩
  case h_6 =>
    obtain ⟨s₁, t, ht, he⟩ := take_bind_eq_ok hk (by decide) h
    obtain ⟨rfl, rfl⟩ : Actor.testSpecToSpec t.pos = a ∧ s₁ = s' := by simpa using he
    exact ⟨_, .flat trivial, yields_singleton.2 ht.key, by
      simp [Actor.leaves, key, Ident.leaf, word]⟩
  case h_7 =>
    obtain ⟨s₁, t, ht, he⟩ := take_bind_eq_ok hk (by decide) h
    obtain ⟨rfl, rfl⟩ : Actor.specToTestSpec t.pos = a ∧ s₁ = s' := by simpa using he
    exact ⟨_, .flat trivial, yields_singleton.2 ht.key, by
      simp [Actor.leaves, key, Ident.leaf, word]⟩
  case h_8 =>
    obtain ⟨s₁, t, ht, h⟩ := take_bind_eq_ok hk (by decide) h
    obtain ⟨s₂, t₂, ht₂, h⟩ := expectOr_bind_eq_ok (by decide) h
    obtain ⟨s₃, r, hr, h⟩ := bind_eq_ok.1 h
    obtain ⟨s₄, t₄, ht₄, he⟩ := expectOr_bind_eq_ok (by decide) h
    obtain ⟨rfl, rfl⟩ : r = a ∧ s₄ = s' := by simpa using he
    simp only [Stepwise.identityTarget, nextIs_bind, beq_iff_eq] at hr
    split at hr
    · obtain ⟨m, hm, rfl⟩ := map_eq_ok.1 (by simpa using hr)
      obtain ⟨hne, hy⟩ := argMap_eq_ok.1 hm
      exact ⟨_, .flat hne, .cons ht.key (.cons ht₂.mark (hy.append (yields_singleton.2 ht₄.mark))),
        by simp [Actor.leaves]⟩
    · rw [peek_bind] at hr
      split at hr
      · obtain ⟨b, hb, rfl⟩ := map_eq_ok.1 (by simpa using hr)
        obtain ⟨ls, hls, hy, -⟩ := (hactor _ _ _).1 hb
        exact ⟨_, .identity hls _,
          .cons ht.key (.cons ht₂.mark (hy.append (yields_singleton.2 ht₄.mark))), by simp⟩
      · simp at hr
  case h_9 =>
    obtain ⟨s₁, t, ht, h⟩ := take_bind_eq_ok hk (by decide) h
    obtain ⟨s₂, t₂, ht₂, h⟩ := expectOr_bind_eq_ok (by decide) h
    obtain ⟨s₃, ⟨b, c⟩, hp, he⟩ := bind_eq_ok.1 h
    obtain ⟨rfl, rfl⟩ : Actor.sequence b c t.pos = a ∧ s₃ = s' := by simpa using he
    obtain ⟨ls, ms, hb, hc, hy⟩ := (actorPair_eq_ok hactor).1 hp
    exact ⟨_, .sequence hb hc _, .cons ht.key (.cons ht₂.mark hy), by simp⟩
  case h_10 =>
    obtain ⟨s₁, t, ht, h⟩ := take_bind_eq_ok hk (by decide) h
    obtain ⟨s₂, t₂, ht₂, h⟩ := expectOr_bind_eq_ok (by decide) h
    obtain ⟨s₃, ⟨b, c⟩, hp, he⟩ := bind_eq_ok.1 h
    obtain ⟨rfl, rfl⟩ : Actor.parallel b c t.pos = a ∧ s₃ = s' := by simpa using he
    obtain ⟨ls, ms, hb, hc, hy⟩ := (actorPair_eq_ok hactor).1 hp
    exact ⟨_, .parallel hb hc _, .cons ht.key (.cons ht₂.mark hy), by simp⟩
  case h_11 =>
    obtain ⟨s₁, t, ht, h⟩ := take_bind_eq_ok hk (by decide) h
    obtain ⟨s₂, t₂, ht₂, h⟩ := expectOr_bind_eq_ok (by decide) h
    obtain ⟨s₃, e, he, h⟩ := bind_eq_ok.1 h
    obtain ⟨s₄, t₄, ht₄, h⟩ := expectOr_bind_eq_ok (by decide) h
    obtain ⟨s₅, ⟨b, c⟩, hp, heq⟩ := bind_eq_ok.1 h
    obtain ⟨rfl, rfl⟩ : Actor.ifThenElse e b c t.pos = a ∧ s₅ = s' := by simpa using heq
    obtain ⟨ls, ms, hb, hc, hy⟩ := (actorPair_eq_ok hactor).1 hp
    have hr := (hexpr _ _ _).1 he
    exact ⟨_, .ifThenElse hr.normal hr.depth_le hb hc _,
      .cons ht.key (.cons ht₂.mark (hr.yields.append (.cons ht₄.mark hy))), by simp⟩
  case h_12 =>
    obtain ⟨s₁, t, ht, h⟩ := take_bind_eq_ok hk (by decide) h
    obtain ⟨s₂, t₂, ht₂, h⟩ := expectOr_bind_eq_ok (by decide) h
    obtain ⟨s₃, watched, hw, h⟩ := bind_eq_ok.1 h
    obtain ⟨s₄, t₄, ht₄, h⟩ := expectOr_bind_eq_ok (by decide) h
    obtain ⟨b, ls, s₅, hb, hy, he⟩ :=
      (actorThen_eq_ok hactor [] (by decide) (by decide)).1 h
    obtain ⟨rfl, rfl⟩ : Actor.iterate watched b t.pos = a ∧ s₅ = s' := by simpa using he
    exact ⟨_, .iterate watched hb _, .cons ht.key (.cons ht₂.mark
      ((quotedIdent_eq_ok.1 hw).append (.cons ht₄.mark hy))), by simp⟩
  case h_13 =>
    obtain ⟨s₁, t, ht, h⟩ := take_bind_eq_ok hk (by decide) h
    obtain ⟨b, ls, s₂, hb, hy, he⟩ :=
      (actorThen_eq_ok hactor [] (by decide) (by decide)).1 h
    obtain ⟨rfl, rfl⟩ : Actor.parens b t.pos = a ∧ s₂ = s' := by simpa using he
    exact ⟨_, .parens hb _, .cons ht.key hy, by simp⟩
  case h_14 => simp at h

theorem actorOf_of_read {s s' : TokenStream P} {a : Actor P} (h : Actor.Read (room + 1) s a s') :
    actorOf actor expr s = .ok (a, s') := by
  obtain ⟨ls, hls, hy, hends⟩ := h
  simp only [Stepwise.actorOf, peek_bind]
  cases hls with
  | flat hflat =>
      cases a with
      | atomic type source pos =>
          obtain ⟨s₁, hg, hy⟩ := hy
          simp only [hg.current_kind, key_kind]
          obtain ⟨x, hx⟩ := take_of_key hg (by decide)
          have htype : s₁.current.kind = .typeName := by
            obtain ⟨_, ht, -⟩ := hy
            exact ht.current_kind
          rw [bind_of_eq_ok hx]
          simp only [Stepwise.factoryActor, nextIs_bind, htype, beq_self_eq_true, if_true]
          exact bind_of_eq_ok (typeAndSource_eq_ok.2 hy)
      | call name args =>
          have hcall := functionCall_eq_ok.2 ⟨name, args, rfl, hy⟩
          obtain ⟨s₁, hg, s₂, hp, -⟩ := hy
          simp only [hg.current_kind, Ident.leaf_kind, aheadIs_bind, hg.kindAt_succ, kindAt_zero,
            hp.current_kind, mark_kind, beq_self_eq_true, if_true]
          exact hcall
      | joiner type merge output pos =>
          obtain ⟨s₁, hg, hy⟩ := hy
          simp only [hg.current_kind, key_kind]
          obtain ⟨x, hx⟩ := take_of_key hg (by decide)
          rw [bind_of_eq_ok hx]
          exact joiner_eq_ok.2 ⟨type, merge, output, rfl, hflat, hy⟩
      | copy map pos =>
          obtain ⟨s₁, hg, hy⟩ := hy
          simp only [hg.current_kind, key_kind]
          obtain ⟨x, hx⟩ := take_of_key hg (by decide)
          rw [bind_of_eq_ok hx]
          exact bind_of_eq_ok (mapInParens_eq_ok.2 ⟨hflat, hy⟩)
      | rename map pos =>
          obtain ⟨s₁, hg, hy⟩ := hy
          simp only [hg.current_kind, key_kind]
          obtain ⟨x, hx⟩ := take_of_key hg (by decide)
          rw [bind_of_eq_ok hx]
          exact bind_of_eq_ok (mapInParens_eq_ok.2 ⟨hflat, hy⟩)
      | testSpecToSpec pos =>
          have hg := yields_singleton.1 hy
          simp only [hg.current_kind, key_kind]
          obtain ⟨x, hx⟩ := take_of_key hg (by decide)
          exact bind_of_eq_ok hx
      | specToTestSpec pos =>
          have hg := yields_singleton.1 hy
          simp only [hg.current_kind, key_kind]
          obtain ⟨x, hx⟩ := take_of_key hg (by decide)
          exact bind_of_eq_ok hx
      | identityMap target pos =>
          obtain ⟨s₁, hg, s₂, hp, hy⟩ := hy
          obtain ⟨s₃, hm, hr⟩ := yields_append.1 hy
          simp only [hg.current_kind, key_kind]
          obtain ⟨x, hx⟩ := take_of_key hg (by decide)
          have hbrace : s₂.current.kind = .lbrace := by
            obtain ⟨_, hb, -⟩ := hm
            exact hb.current_kind
          have htarget : identityTarget actor pos s₂ = .ok (.identityMap target pos, s₃) := by
            simp only [Stepwise.identityTarget, nextIs_bind, hbrace, beq_self_eq_true, if_true]
            exact bind_of_eq_ok (argMap_eq_ok.2 ⟨hflat, hm⟩)
          rw [bind_of_eq_ok hx, expect_bind_of_mark hp (by decide), bind_of_eq_ok htarget,
            expect_bind_of_mark (yields_singleton.1 hr) (by decide)]
          rfl
      | named id =>
          have hg := yields_singleton.1 hy
          have hnext : s.kindAt 1 ≠ .lparen := by
            rw [hg.kindAt_succ]
            exact hends id rfl
          simp only [hg.current_kind, Ident.leaf_kind, aheadIs_bind, beq_iff_eq]
          rw [if_neg hnext]
          exact bind_of_eq_ok (ident_eq_ok.2 hg)
      | identity | sequence | ifThenElse | iterate | parallel | parens => exact hflat.elim
  | wrapped hb =>
      obtain ⟨s₁, hg, hy⟩ := hy
      have hk : s.current.kind = .actorFactory := hg.current_kind
      simp only [hk]
      obtain ⟨t, ht⟩ := gives_mark.1 hg
      have htake : take s = .ok (t, s₁) := by
        rw [take_eq_expect hk]
        exact (expect_eq_ok (by decide)).2 ht
      rw [bind_of_eq_ok htake]
      exact factoryActor_of_spelling hactor hb hy
  | identity hb pos =>
      obtain ⟨s₁, hg, s₂, hp, hy⟩ := hy
      simp only [hg.current_kind, key_kind]
      obtain ⟨x, hx⟩ := take_of_key hg (by decide)
      rw [bind_of_eq_ok hx, expect_bind_of_mark hp (by decide)]
      exact identityTarget_of_spelling hactor hb hy
  | sequence hb hc pos =>
      obtain ⟨s₁, hg, s₂, hp, hy⟩ := hy
      simp only [hg.current_kind, key_kind]
      obtain ⟨x, hx⟩ := take_of_key hg (by decide)
      rw [bind_of_eq_ok hx, expect_bind_of_mark hp (by decide)]
      exact bind_of_eq_ok ((actorPair_eq_ok hactor).2 ⟨_, _, hb, hc, hy⟩)
  | parallel hb hc pos =>
      obtain ⟨s₁, hg, s₂, hp, hy⟩ := hy
      simp only [hg.current_kind, key_kind]
      obtain ⟨x, hx⟩ := take_of_key hg (by decide)
      rw [bind_of_eq_ok hx, expect_bind_of_mark hp (by decide)]
      exact bind_of_eq_ok ((actorPair_eq_ok hactor).2 ⟨_, _, hb, hc, hy⟩)
  | ifThenElse he hd hb hc pos =>
      obtain ⟨s₁, hg, s₂, hp, hy⟩ := hy
      obtain ⟨s₃, hye, s₄, hcomma, hy⟩ := yields_append.1 hy
      simp only [hg.current_kind, key_kind]
      obtain ⟨x, hx⟩ := take_of_key hg (by decide)
      have hread : Expr.Read room .chain s₂ _ s₃ :=
        ⟨he, hd, by simp, hye, fun _ => by simp [hcomma.current_kind]⟩
      rw [bind_of_eq_ok hx, expect_bind_of_mark hp (by decide),
        bind_of_eq_ok ((hexpr _ _ _).2 hread), expectOr_bind_of_mark hcomma (by decide)]
      exact bind_of_eq_ok ((actorPair_eq_ok hactor).2 ⟨_, _, hb, hc, hy⟩)
  | iterate watched hb pos =>
      obtain ⟨s₁, hg, s₂, hp, hy⟩ := hy
      obtain ⟨s₃, hw, s₄, hcomma, hy⟩ := yields_append.1 hy
      simp only [hg.current_kind, key_kind]
      obtain ⟨x, hx⟩ := take_of_key hg (by decide)
      rw [bind_of_eq_ok hx, expect_bind_of_mark hp (by decide),
        bind_of_eq_ok (quotedIdent_eq_ok.2 hw), expect_bind_of_mark hcomma (by decide)]
      exact (actorThen_eq_ok hactor [] (by decide) (by decide)).2
        ⟨_, _, s', hb, hy, rfl⟩
  | parens hb pos =>
      obtain ⟨s₁, hg, hy⟩ := hy
      simp only [hg.current_kind, key_kind]
      obtain ⟨x, hx⟩ := take_of_key hg (by decide)
      rw [bind_of_eq_ok hx]
      exact (actorThen_eq_ok hactor [] (by decide) (by decide)).2
        ⟨_, _, s', hb, hy, rfl⟩

end Nested

theorem actor_eq_ok {limit room : Nat} {s s' : TokenStream P} {a : Actor P} :
    actor limit room s = .ok (a, s') ↔ Actor.Read room s a s' := by
  induction room generalizing s a s' with
  | zero =>
      simp only [Stepwise.actor, tooDeep, fail_ne_ok, false_iff]
      rintro ⟨ls, h, -⟩
      cases h
  | succ room ih =>
      have hactor : ∀ s a s', actor limit room s = .ok (a, s') ↔ Actor.Read room s a s' :=
        fun _ _ _ => ih
      have hexpr : ∀ (s : TokenStream P) e s',
          expr limit room s = .ok (e, s') ↔ Expr.Read room .chain s e s' :=
        fun _ _ _ => exprAt_eq_ok
      exact ⟨read_of_actorOf hactor hexpr, actorOf_of_read hactor hexpr⟩

end Parser

end ActorLang
