import ActorLang.Proofs.Parser.Program
import ActorLang.Tree.Relocate

/-!
# No token is lost

The only tokens of which a program keeps no trace are the calls `ActorFactory.create(` around a
complete actor, with the parentheses that close them. Which calls these are can be told from the
tokens alone: no name of a type follows. All other tokens are the frontier of the program, in their
order, and every place in the tree is the place of its token.
-/

namespace ActorLang

variable {P α : Type}

def Token.typeFirst (tokens : List (Token P)) : Bool :=
  tokens.head?.any (·.kind == .typeName)

/-- The tokens without the calls of the actor factory that have no type behind them, and without
the parentheses that close such calls. For each open parenthesis, the innermost first, `opened`
says whether it belongs to one. -/
def Token.unwrap : (opened : List Bool) → List (Token P) → List (Token P)
  | _, [] => []
  | opened, t :: rest =>
    match t.kind with
    | .actorFactory =>
      if typeFirst rest then t :: unwrap (false :: opened) rest else unwrap (true :: opened) rest
    | .lparen | .print | .execute | .artifactFactory => t :: unwrap (false :: opened) rest
    | .rparen =>
      if opened.headD false then unwrap opened.tail rest else t :: unwrap opened.tail rest
    | _ => t :: unwrap opened rest

def Token.unwrapped (tokens : List (Token P)) : List (Token P) :=
  unwrap [] tokens

theorem Token.unwrap_sublist (opened : List Bool) (tokens : List (Token P)) :
    (Token.unwrap opened tokens).Sublist tokens := by
  fun_induction Token.unwrap opened tokens with
  | case1 => exact .slnil
  | case3 opened t rest hk ht ih | case8 opened t rest hk ht ih => exact .cons t ih
  | _ => exact .cons_cons _ ‹_›

def TokenKind.level (k : TokenKind) : Bool :=
  k != .rparen && k.closer != some .rparen

/-- Tokens that match the first row match the second one once they are unwrapped, wherever they
stand. -/
def Leaf.Strips (ls ms : List (Leaf P)) : Prop :=
  ∀ ts, List.Forall₂ Leaf.Matches ls ts → ∃ us, List.Forall₂ Leaf.Matches ms us ∧
    ∀ opened rest, Token.unwrap opened (ts ++ rest) = us ++ Token.unwrap opened rest

namespace Leaf

open Token

theorem unwrap_level {t : Token P} (h : t.kind.level = true) (opened : List Bool)
    (rest : List (Token P)) : unwrap opened (t :: rest) = t :: unwrap opened rest := by
  rw [unwrap]
  cases hk : t.kind <;> simp_all [TokenKind.level, TokenKind.closer]

theorem unwrap_opener {t : Token P} (h : t.kind.closer = some .rparen)
    (hf : t.kind ≠ .actorFactory) (opened : List Bool) (rest : List (Token P)) :
    unwrap opened (t :: rest) = t :: unwrap (false :: opened) rest := by
  rw [unwrap]
  cases hk : t.kind <;> simp_all [TokenKind.closer]

/-- The first token of a row stays where it is unless it is dropped. -/
theorem head_unwrap {t : Token P} (hf : t.kind ≠ .actorFactory) (hr : t.kind ≠ .rparen)
    (opened : List Bool) (rest : List (Token P)) :
    (unwrap opened (t :: rest)).head? = some t := by
  rw [unwrap]
  cases hk : t.kind <;> simp_all

theorem Strips.unwrapped {ls ms : List (Leaf P)} {ts : List (Token P)} (h : Strips ls ms)
    (hm : List.Forall₂ Matches ls ts) : List.Forall₂ Matches ms (Token.unwrapped ts) := by
  obtain ⟨us, hus, hunwrap⟩ := h ts hm
  have hall : unwrap [] ts = us := by simpa [unwrap] using hunwrap [] []
  rw [Token.unwrapped, hall]
  exact hus

/-! ## Rows -/

theorem Strips.nil : Strips ([] : List (Leaf P)) [] := by
  intro ts h
  obtain rfl := List.forall₂_nil_left_iff.1 h
  exact ⟨[], .nil, fun _ _ => rfl⟩

/-- Unwrapping one row leaves the open parentheses as they were for the next one. -/
theorem Strips.append {ls ls' ms ms' : List (Leaf P)} (h : Strips ls ms) (h' : Strips ls' ms') :
    Strips (ls ++ ls') (ms ++ ms') := by
  intro ts hts
  obtain ⟨ts₁, ts₂, h₁, h₂, rfl⟩ := matches_append.1 hts
  obtain ⟨us₁, hu₁, he₁⟩ := h ts₁ h₁
  obtain ⟨us₂, hu₂, he₂⟩ := h' ts₂ h₂
  refine ⟨us₁ ++ us₂, List.rel_append hu₁ hu₂, fun opened rest => ?_⟩
  rw [List.append_assoc, he₁, he₂, List.append_assoc]

theorem Strips.cons {l : Leaf P} {ls ms : List (Leaf P)} (hl : l.kind.level = true)
    (h : Strips ls ms) : Strips (l :: ls) (l :: ms) := by
  intro ts hts
  obtain ⟨t, body, ht, hbody, rfl⟩ := List.forall₂_cons_left_iff.1 hts
  obtain ⟨us, hus, he⟩ := h body hbody
  refine ⟨t :: us, .cons ht hus, fun opened rest => ?_⟩
  rw [List.cons_append, unwrap_level (by rw [ht.kind, hl]), he, List.cons_append]

theorem Strips.of_level {ls : List (Leaf P)} (h : ∀ l ∈ ls, l.kind.level = true) :
    Strips ls ls := by
  induction ls with
  | nil => exact .nil
  | cons l ls ih =>
      obtain ⟨hl, hls⟩ := List.forall_mem_cons.1 h
      exact .cons hl (ih hls)

/-- What stands between an opening token and its parenthesis is unwrapped on its own. -/
theorem Strips.group {o r : Leaf P} {ls ms : List (Leaf P)} (ho : o.kind.closer = some .rparen)
    (hf : o.kind ≠ .actorFactory) (hr : r.kind = .rparen) (h : Strips ls ms) :
    Strips (o :: (ls ++ [r])) (o :: (ms ++ [r])) := by
  intro ts hts
  obtain ⟨t, tail, ht, htail, rfl⟩ := List.forall₂_cons_left_iff.1 hts
  obtain ⟨body, close, hbody, hclose, rfl⟩ := matches_append.1 htail
  obtain ⟨u, hu, rfl⟩ := matches_singleton.1 hclose
  obtain ⟨us, hus, he⟩ := h body hbody
  refine ⟨t :: (us ++ [u]), .cons ht (List.rel_append hus (.cons hu .nil)), fun opened rest => ?_⟩
  have hkept : unwrap (false :: opened) (u :: rest) = u :: unwrap opened rest := by
    simp [unwrap, hu.kind, hr]
  simp only [List.cons_append, List.append_assoc, List.nil_append]
  rw [unwrap_opener (by rw [ht.kind, ho]) (by rw [ht.kind]; exact hf), he, hkept]

/-- A call of the actor factory with a type behind it is kept. -/
theorem Strips.factory {o l r : Leaf P} {ls : List (Leaf P)} (ho : o.kind = .actorFactory)
    (hl : l.kind = .typeName) (hr : r.kind = .rparen) (h : Strips (l :: ls) (l :: ls)) :
    Strips (o :: (l :: ls ++ [r])) (o :: (l :: ls ++ [r])) := by
  intro ts hts
  obtain ⟨t, tail, ht, htail, rfl⟩ := List.forall₂_cons_left_iff.1 hts
  obtain ⟨body, close, hbody, hclose, rfl⟩ := matches_append.1 htail
  obtain ⟨u, hu, rfl⟩ := matches_singleton.1 hclose
  obtain ⟨us, hus, he⟩ := h body hbody
  refine ⟨t :: (us ++ [u]), .cons ht (List.rel_append hus (.cons hu .nil)), fun opened rest => ?_⟩
  have htype : typeFirst (body ++ (u :: rest)) = true := by
    obtain ⟨v, vs, hv, -, rfl⟩ := List.forall₂_cons_left_iff.1 hbody
    simp [typeFirst, hv.kind, hl]
  have hkept : unwrap (false :: opened) (u :: rest) = u :: unwrap opened rest := by
    simp [unwrap, hu.kind, hr]
  simp only [List.cons_append, List.append_assoc, List.nil_append]
  rw [unwrap, ht.kind, ho]
  simp only [htype, if_true, he, hkept]

/-- A call of the actor factory around something else than a type is dropped. -/
theorem Strips.wrapped {o l r : Leaf P} {ls ms : List (Leaf P)} (ho : o.kind = .actorFactory)
    (hl : l.kind ≠ .typeName) (hr : r.kind = .rparen) (h : Strips (l :: ls) ms) :
    Strips (o :: (l :: ls ++ [r])) ms := by
  intro ts hts
  obtain ⟨t, tail, ht, htail, rfl⟩ := List.forall₂_cons_left_iff.1 hts
  obtain ⟨body, close, hbody, hclose, rfl⟩ := matches_append.1 htail
  obtain ⟨u, hu, rfl⟩ := matches_singleton.1 hclose
  obtain ⟨us, hus, he⟩ := h body hbody
  refine ⟨us, hus, fun opened rest => ?_⟩
  have htype : typeFirst (body ++ (u :: rest)) = false := by
    obtain ⟨v, vs, hv, -, rfl⟩ := List.forall₂_cons_left_iff.1 hbody
    simpa [typeFirst, hv.kind] using hl
  have hdropped : unwrap (true :: opened) (u :: rest) = unwrap opened rest := by
    simp [unwrap, hu.kind, hr]
  simp only [List.cons_append, List.append_assoc, List.nil_append]
  rw [unwrap, ht.kind, ho]
  simp [htype, he, hdropped]

/-- A keyword with its arguments in parentheses. -/
theorem Strips.call {k : Leaf P} {ls ms : List (Leaf P)} (hk : k.kind.level = true)
    (h : Strips ls ms) :
    Strips (k :: mark .lparen :: (ls ++ [mark .rparen]))
      (k :: mark .lparen :: (ms ++ [mark .rparen])) :=
  .cons hk (.group rfl (by simp) rfl h)

/-- A row may be told its place if its first token is kept. -/
theorem Strips.pin {l : Leaf P} {ls ms : List (Leaf P)} (hf : l.kind ≠ .actorFactory)
    (hr : l.kind ≠ .rparen) (h : Strips (l :: ls) (l :: ms)) (pos : P) :
    Strips (pin pos (l :: ls)) (pin pos (l :: ms)) := by
  intro ts hts
  obtain ⟨t, tail, ht, htail, rfl⟩ := List.forall₂_cons_left_iff.1 hts
  obtain ⟨hpos, ht⟩ := matches_pinned.1 ht
  obtain ⟨us, hus, he⟩ := h (t :: tail) (.cons ht htail)
  obtain ⟨u, us, hu, hms, rfl⟩ := List.forall₂_cons_left_iff.1 hus
  have hhead := head_unwrap (t := t) (by rw [ht.kind]; exact hf) (by rw [ht.kind]; exact hr) [] tail
  have htu : u = t := by
    have hall := he [] []
    rw [List.append_nil] at hall
    rw [hall] at hhead
    exact Option.some.inj hhead
  exact ⟨u :: us, .cons (matches_pinned.2 ⟨htu ▸ hpos, hu⟩) hms, he⟩

theorem strips_commaRow {f : α → List (Leaf P)} (h : ∀ a, Strips (f a) (f a)) (as : List α) :
    Strips (commaRow f as) (commaRow f as) := by
  have hrest : ∀ bs : List α, Strips (bs.flatMap fun b => mark .comma :: f b)
      (bs.flatMap fun b => mark .comma :: f b) := by
    intro bs
    induction bs with
    | nil => exact .nil
    | cons b bs ih => exact Strips.append (.cons rfl (h b)) ih
  cases as with
  | nil => exact .nil
  | cons a as => exact (h a).append (hrest as)

theorem Strips.concat {R : α → List (Leaf P) → Prop} {f : α → List (Leaf P)}
    (h : ∀ a ls, R a ls → Strips ls (f a)) {as : List α} {ls : List (Leaf P)}
    (hls : Concat R as ls) : Strips ls (as.flatMap f) := by
  induction as generalizing ls with
  | nil =>
      obtain rfl : ls = [] := hls
      exact .nil
  | cons a as ih =>
      obtain ⟨row, rest, ha, hrest, rfl⟩ := hls
      exact (h a row ha).append (ih hrest)

end Leaf

open Leaf

/-! ## Trees -/

theorem Reference.strips_args (type : TypeIdent P) (source : Reference P) :
    Strips [type.leaf, mark .comma, source.leaf] [type.leaf, mark .comma, source.leaf] := by
  refine .of_level ?_
  cases source <;> simp [Reference.leaf, TokenKind.level, TokenKind.closer]

theorem Reference.strips_factoryLeaves (type : TypeIdent P) (source : Reference P) (pos : P) :
    Strips (source.factoryLeaves .artifactFactory type pos)
      (source.factoryLeaves .artifactFactory type pos) :=
  Strips.group rfl (by simp) rfl (source.strips_args type)

theorem Ident.strips_quotedLeaves (id : Ident P) : Strips id.quotedLeaves id.quotedLeaves :=
  .of_level (by simp [Ident.quotedLeaves, TokenKind.level, TokenKind.closer])

theorem MapItem.strips_leaves (i : MapItem P) : Strips i.leaves i.leaves := by
  obtain ⟨key, value⟩ := i
  refine key.strips_quotedLeaves.append ?_
  match value with
  | none => exact .nil
  | some (.artifact (.literal type source pos)) =>
      exact .cons rfl (source.strips_factoryLeaves type pos)
  | some (.artifact (.named id)) => exact .cons rfl (.cons rfl .nil)
  | some (.artifactType type) => exact .cons rfl (.cons rfl .nil)
  | some (.quoted id) => exact .cons rfl id.strips_quotedLeaves

theorem ArgMap.strips_leaves (m : ArgMap P) : Strips m.leaves m.leaves :=
  .cons rfl (.append (strips_commaRow MapItem.strips_leaves _) (.cons rfl .nil))

theorem Ident.strips_row (ids : List (Ident P)) : Strips (Ident.row ids) (Ident.row ids) :=
  strips_commaRow (fun _ => .cons rfl .nil) ids

theorem Expr.strips_leaves (e : Expr P) : Strips e.leaves e.leaves := by
  induction e with
  | not operand pos ih => exact .cons rfl ih
  | instanceOf subject type pos =>
      have hargs : Strips [subject.leaf, mark .comma, type.leaf] _ :=
        .cons rfl (.cons rfl (.cons rfl .nil))
      exact .call rfl hargs
  | elementOf subject verdicts pos =>
      have hverdicts := strips_commaRow (P := P) (f := fun v : Verdict => [v.leaf])
        (fun _ => .cons rfl .nil) verdicts
      have hargs : Strips (subject.leaf :: mark .comma :: mark .lbrace ::
          (commaRow (fun v => [v.leaf]) verdicts ++ [mark .rbrace])) _ :=
        .cons rfl (.cons rfl (.cons rfl (hverdicts.append (.cons rfl .nil))))
      simpa [Expr.leaves] using Strips.call (k := key .elementOf pos) rfl hargs
  | named id => exact .cons rfl .nil
  | parens inner pos ih => exact .group rfl (by simp) rfl ih
  | binary left op opPos right ihl ihr => exact ihl.append (.cons rfl ihr)

/-- The calls around an actor are what unwrapping takes away. -/
theorem Actor.Spelling.strips {n : Nat} {a : Actor P} {ls : List (Leaf P)}
    (h : a.Spelling n ls) : Strips ls (a.leaves .plain) := by
  induction h with
  | @flat n a hflat =>
      cases a with
      | atomic type source pos => exact Strips.factory rfl rfl rfl (source.strips_args type)
      | call name args => exact .call rfl (Ident.strips_row args)
      | joiner type merge output pos =>
          have hargs : Strips (type.leaf :: mark .comma :: (merge.leaves ++ mark .comma ::
              output.quotedLeaves)) _ :=
            .cons rfl (.cons rfl
              (merge.strips_leaves.append (.cons rfl output.strips_quotedLeaves)))
          simpa [Actor.leaves] using Strips.call (k := key .joiner pos) rfl hargs
      | copy map pos => exact .call rfl map.strips_leaves
      | rename map pos => exact .call rfl map.strips_leaves
      | testSpecToSpec pos => exact .cons rfl .nil
      | specToTestSpec pos => exact .cons rfl .nil
      | identityMap target pos => exact .call rfl target.strips_leaves
      | named id => exact .cons rfl .nil
      | identity | sequence | ifThenElse | iterate | parallel | parens => exact hflat.elim
  | wrapped h ih =>
      obtain ⟨l, rest, rfl, hstart⟩ := h.starts
      refine Strips.wrapped rfl ?_ rfl ih
      rintro htype
      rw [htype] at hstart
      exact absurd hstart (by decide)
  | identity h pos ih => exact .call rfl ih
  | sequence ha hb pos iha ihb =>
      simpa [Actor.leaves] using
        Strips.call (k := key .sequence pos) rfl (iha.append (.cons (l := mark .comma) rfl ihb))
  | @ifThenElse n e a b ls ms he hd ha hb pos iha ihb =>
      have hargs := e.strips_leaves.append
        (.cons (l := mark .comma) rfl (iha.append (.cons (l := mark .comma) rfl ihb)))
      simpa [Actor.leaves] using Strips.call (k := key .ite pos) rfl hargs
  | iterate watched ha pos iha =>
      simpa [Actor.leaves] using Strips.call (k := key .iterate pos) rfl
        (watched.strips_quotedLeaves.append (.cons (l := mark .comma) rfl iha))
  | parallel ha hb pos iha ihb =>
      simpa [Actor.leaves] using
        Strips.call (k := key .parallel pos) rfl (iha.append (.cons (l := mark .comma) rfl ihb))
  | parens h pos ih => exact .group rfl (by simp) rfl ih

theorem Assignable.Spelling.strips {limits : Limits} {room : Nat} {v : Assignable P}
    {ls : List (Leaf P)} (h : v.Spelling limits room ls) : Strips ls (v.leaves .plain) := by
  obtain ⟨-, h⟩ := h
  cases v with
  | expression e =>
      obtain ⟨-, -, rfl⟩ := h
      exact e.strips_leaves
  | artifact a =>
      cases a with
      | named id => exact h.elim
      | literal type source pos =>
          subst h
          exact source.strips_factoryLeaves type pos
  | argMap m =>
      obtain ⟨-, rfl⟩ := h
      exact m.strips_leaves
  | actor a =>
      have hplain : (Assignable.actor a).leaves .plain = a.leaves .plain := by
        simp [Assignable.leaves]
      rw [hplain]
      exact h.1.strips
  | literal l =>
      subst h
      exact .cons rfl .nil

theorem Inputs.strips_leaves (i : Inputs P) : Strips i.leaves i.leaves := by
  cases i with
  | named id => exact .cons rfl .nil
  | argMap m => exact m.strips_leaves

theorem Statement.Spelling.strips {limits : Limits} {st : Statement P} {ls : List (Leaf P)}
    (h : st.Spelling limits ls) : Strips ls (st.leaves .plain) := by
  cases st with
  | assign target value =>
      obtain ⟨row, hrow, rfl⟩ := h
      exact .cons rfl (.cons rfl hrow.strips)
  | print a pos =>
      obtain ⟨row, hrow, rfl⟩ := h
      exact .group rfl (by simp) rfl hrow.strips
  | execute a i pos =>
      obtain ⟨row, hrow, -, rfl⟩ := h
      have hargs := hrow.strips.append (.cons (l := mark .comma) rfl i.strips_leaves)
      simpa [Statement.leaves] using
        Strips.group (o := key .execute pos) (r := mark .rparen) rfl (by simp) rfl hargs
  | ret value pos =>
      obtain rfl := h
      exact .cons rfl (.cons rfl .nil)

/-- The first token of a statement is kept. -/
theorem Statement.Spelling.head {limits : Limits} {st : Statement P} {ls : List (Leaf P)}
    (h : st.Spelling limits ls) :
    ∃ l ms ns, ls = l :: ms ∧ st.leaves .plain = l :: ns ∧ l.kind ≠ .actorFactory ∧
      l.kind ≠ .rparen := by
  cases st with
  | assign target value =>
      obtain ⟨row, -, rfl⟩ := h
      exact ⟨_, _, _, rfl, rfl, by simp, by simp⟩
  | print a pos =>
      obtain ⟨row, -, rfl⟩ := h
      exact ⟨_, _, _, rfl, rfl, by simp, by simp⟩
  | execute a i pos =>
      obtain ⟨row, -, -, rfl⟩ := h
      exact ⟨_, _, _, rfl, rfl, by simp, by simp⟩
  | ret value pos =>
      obtain rfl := h
      exact ⟨_, _, _, rfl, rfl, by simp, by simp⟩

theorem Block.Spelling.strips {limits : Limits} {closer : TokenKind}
    (hc : closer.level = true) {b : Block P} {ls : List (Leaf P)}
    (h : b.Spelling limits closer ls) : Strips ls (b.leaves .plain closer) := by
  obtain ⟨rows, hrows, rfl⟩ := h
  have hlines :
      Strips rows (b.statements.flatMap fun s => s.leaves .plain ++ [mark .delimiter]) := by
    refine Strips.concat ?_ hrows
    rintro st _ ⟨row, hrow, rfl⟩
    exact hrow.strips.append (.cons rfl .nil)
  have hall := hlines.append (.cons (l := mark closer) hc .nil)
  obtain ⟨statements, pos⟩ := b
  cases statements with
  | nil =>
      obtain rfl : rows = [] := hrows
      refine Strips.pin ?_ ?_ hall pos
      · rintro rfl
        cases hc
      · rintro rfl
        cases hc
  | cons st sts =>
      obtain ⟨_, rest, ⟨row, hrow, rfl⟩, -, rfl⟩ := hrows
      obtain ⟨l, ms, ns, rfl, hst, hf, hr⟩ := hrow.head
      simp only [Block.leaves, List.flatMap_cons, hst, List.cons_append] at hall ⊢
      exact Strips.pin hf hr hall pos

theorem Function.Spelling.strips {limits : Limits} {f : Function P} {ls : List (Leaf P)}
    (h : f.Spelling limits ls) : Strips ls (f.leaves .plain) := by
  obtain ⟨body, hbody, rfl⟩ := h
  have hhead : Strips (key .func f.pos :: f.name.leaf :: mark .lparen ::
      (Ident.row f.params ++ [mark .rparen])) _ :=
    .cons rfl (.call rfl (Ident.strips_row f.params))
  simpa [Function.leaves] using
    hhead.append (.cons (l := mark .lbrace) rfl (hbody.strips rfl))

theorem Program.Spelling.strips {limits : Limits} {p : Program P} {ls : List (Leaf P)}
    (h : p.Spelling limits ls) : Strips ls p.frontier := by
  obtain ⟨fs, body, hfs, hbody, rfl⟩ := h
  exact (Strips.concat (fun _ _ hf => Function.Spelling.strips hf) hfs).append (hbody.strips rfl)

/-! ## What a frontier tells -/

section Places

variable {Q : Type} {f g : P → Q}

def Leaf.Agrees (f g : P → Q) (l : Leaf P) : Prop :=
  ∀ x ∈ l.places, f x = g x

@[simp] theorem Leaf.agrees_mark (k : TokenKind) : (mark k).Agrees f g := by
  simp [Agrees, mark]

@[simp] theorem Leaf.agrees_key {k : TokenKind} {pos : P} :
    (key k pos).Agrees f g ↔ f pos = g pos := by
  simp [Agrees, key]

@[simp] theorem Leaf.agrees_word {k : TokenKind} {x : String} {pos : P} :
    (word k x pos).Agrees f g ↔ f pos = g pos := by
  simp [Agrees, word]

theorem Leaf.agrees_of_pin {pos : P} {ls : List (Leaf P)} (hls : ls ≠ [])
    (h : ∀ l ∈ pin pos ls, l.Agrees f g) : f pos = g pos ∧ ∀ l ∈ ls, l.Agrees f g := by
  obtain ⟨l, ls, rfl⟩ := List.exists_cons_of_ne_nil hls
  obtain ⟨hl, hls⟩ := List.forall_mem_cons.1 h
  refine ⟨hl pos (by simp), List.forall_mem_cons.2 ⟨fun x hx => hl x (by simp [hx]), hls⟩⟩

theorem Ident.map_congr {id : Ident P} (h : id.leaf.Agrees f g) : id.map f = id.map g := by
  simpa [Ident.map, Ident.leaf] using h

theorem TypeIdent.map_congr {type : TypeIdent P} (h : type.leaf.Agrees f g) :
    type.map f = type.map g := by
  simpa [TypeIdent.map, TypeIdent.leaf] using h

theorem Literal.map_congr {l : Literal P} (h : l.leaf.Agrees f g) : l.map f = l.map g := by
  simpa [Literal.map, Literal.leaf] using h

theorem Reference.map_congr {r : Reference P} (h : r.leaf.Agrees f g) : r.map f = r.map g := by
  cases r with
  | name id => exact congrArg Reference.name (Ident.map_congr h)
  | literal lit => exact congrArg Reference.literal (Literal.map_congr h)

theorem Ident.quoted_map_congr {id : Ident P} (h : ∀ l ∈ id.quotedLeaves, l.Agrees f g) :
    id.map f = id.map g :=
  id.map_congr (h _ (by simp [Ident.quotedLeaves]))

theorem Artifact.map_congr {a : Artifact P} (h : ∀ l ∈ a.leaves, l.Agrees f g) :
    a.map f = a.map g := by
  cases a with
  | literal type source pos =>
      simp only [Artifact.leaves, Reference.factoryLeaves, List.forall_mem_cons] at h
      simp only [Artifact.map, TypeIdent.map_congr h.2.1, Reference.map_congr h.2.2.2.1]
      rw [agrees_key.1 h.1]
  | named id => exact congrArg Artifact.named (Ident.map_congr (h _ (by simp [Artifact.leaves])))

theorem MapItem.map_congr {i : MapItem P} (h : ∀ l ∈ i.leaves, l.Agrees f g) :
    i.map f = i.map g := by
  obtain ⟨key, value⟩ := i
  obtain ⟨hkey, hvalue⟩ := List.forall_mem_append.1 h
  have hv : value.map (MapValue.map f) = value.map (MapValue.map g) := by
    match value with
    | none => rfl
    | some (.artifact a) =>
        exact congrArg (fun a => some (MapValue.artifact a))
          (Artifact.map_congr (List.forall_mem_cons.1 hvalue).2)
    | some (.artifactType type) =>
        exact congrArg (fun type => some (MapValue.artifactType type))
          (TypeIdent.map_congr (hvalue _ (by simp [MapValue.leaves])))
    | some (.quoted id) =>
        exact congrArg (fun id => some (MapValue.quoted id))
          (Ident.quoted_map_congr (List.forall_mem_cons.1 hvalue).2)
  simp only [MapItem.map, Ident.quoted_map_congr hkey, hv]

theorem ArgMap.map_congr {m : ArgMap P} (h : ∀ l ∈ m.leaves, l.Agrees f g) :
    m.map f = m.map g := by
  obtain ⟨hpos, h⟩ := List.forall_mem_cons.1 h
  obtain ⟨hitems, -⟩ := List.forall_mem_append.1 h
  have hmap : m.items.map (MapItem.map f) = m.items.map (MapItem.map g) :=
    List.map_congr_left fun i hi =>
      MapItem.map_congr ((forall_mem_commaRow (agrees_mark _)).1 hitems i hi)
  simp only [ArgMap.map, hmap, agrees_key.1 hpos]

theorem Ident.row_map_congr {ids : List (Ident P)} (h : ∀ l ∈ Ident.row ids, l.Agrees f g) :
    ids.map (Ident.map f) = ids.map (Ident.map g) :=
  List.map_congr_left fun id hid =>
    Ident.map_congr ((forall_mem_commaRow (agrees_mark _)).1 h id hid _ (by simp))

theorem Expr.map_congr {e : Expr P} (h : ∀ l ∈ e.leaves, l.Agrees f g) : e.map f = e.map g := by
  induction e with
  | not operand pos ih =>
      obtain ⟨hpos, h⟩ := List.forall_mem_cons.1 h
      simp only [Expr.map, ih h, agrees_key.1 hpos]
  | instanceOf subject type pos =>
      simp only [Expr.leaves, List.forall_mem_cons] at h
      simp only [Expr.map, Ident.map_congr h.2.2.1, TypeIdent.map_congr h.2.2.2.2.1,
        agrees_key.1 h.1]
  | elementOf subject verdicts pos =>
      simp only [Expr.leaves, List.forall_mem_cons] at h
      simp only [Expr.map, Ident.map_congr h.2.2.1, agrees_key.1 h.1]
  | named id => exact congrArg Expr.named (Ident.map_congr (h _ (by simp [Expr.leaves])))
  | parens inner pos ih =>
      simp only [Expr.leaves, List.forall_mem_cons, List.forall_mem_append] at h
      simp only [Expr.map, ih h.2.1, agrees_key.1 h.1]
  | binary left op opPos right ihl ihr =>
      simp only [Expr.leaves, List.forall_mem_cons, List.forall_mem_append] at h
      simp only [Expr.map, ihl h.1, ihr h.2.2, agrees_word.1 h.2.1]

/-- An actor has no place that its leaves do not have. -/
theorem Actor.map_congr {a : Actor P} (h : ∀ l ∈ a.leaves .plain, l.Agrees f g) :
    a.map f = a.map g := by
  induction a with
  | atomic type source pos =>
      simp only [Actor.leaves, Reference.factoryLeaves, List.forall_mem_cons] at h
      simp only [Actor.map, TypeIdent.map_congr h.2.1, Reference.map_congr h.2.2.2.1,
        agrees_key.1 h.1]
  | call name args =>
      simp only [Actor.leaves, Script.plain_call, List.forall_mem_cons, List.forall_mem_append] at h
      simp only [Actor.map, Ident.map_congr h.1.1, Ident.row_map_congr h.2.1]
  | joiner type merge output pos =>
      simp only [Actor.leaves, List.forall_mem_cons, List.forall_mem_append] at h
      simp only [Actor.map, TypeIdent.map_congr h.2.2.1, ArgMap.map_congr h.2.2.2.2.1,
        Ident.quoted_map_congr h.2.2.2.2.2.2.1, agrees_key.1 h.1]
  | copy map pos | rename map pos | identityMap map pos =>
      simp only [Actor.leaves, List.forall_mem_cons, List.forall_mem_append] at h
      simp only [Actor.map, ArgMap.map_congr h.2.2.1, agrees_key.1 h.1]
  | testSpecToSpec pos | specToTestSpec pos =>
      simp only [Actor.leaves, List.forall_mem_cons] at h
      simp only [Actor.map, agrees_key.1 h.1]
  | identity target pos ih =>
      simp only [Actor.leaves, List.forall_mem_cons, List.forall_mem_append] at h
      simp only [Actor.map, ih h.2.2.1, agrees_key.1 h.1]
  | sequence a b pos iha ihb | parallel a b pos iha ihb =>
      simp only [Actor.leaves, List.forall_mem_cons, List.forall_mem_append] at h
      simp only [Actor.map, iha h.2.2.1, ihb h.2.2.2.2.1, agrees_key.1 h.1]
  | ifThenElse e a b pos iha ihb =>
      simp only [Actor.leaves, List.forall_mem_cons, List.forall_mem_append] at h
      simp only [Actor.map, Expr.map_congr h.2.2.1, iha h.2.2.2.2.1, ihb h.2.2.2.2.2.2.1,
        agrees_key.1 h.1]
  | iterate watched body pos ih =>
      simp only [Actor.leaves, List.forall_mem_cons, List.forall_mem_append] at h
      simp only [Actor.map, Ident.quoted_map_congr h.2.2.1, ih h.2.2.2.2.1, agrees_key.1 h.1]
  | named id => exact congrArg Actor.named (Ident.map_congr (h _ (by simp [Actor.leaves])))
  | parens inner pos ih =>
      simp only [Actor.leaves, List.forall_mem_cons, List.forall_mem_append] at h
      simp only [Actor.map, ih h.2.1, agrees_key.1 h.1]

theorem Assignable.map_congr {v : Assignable P} (h : ∀ l ∈ v.leaves .plain, l.Agrees f g) :
    v.map f = v.map g := by
  cases v with
  | expression e => exact congrArg Assignable.expression (Expr.map_congr h)
  | artifact a => exact congrArg Assignable.artifact (Artifact.map_congr h)
  | argMap m => exact congrArg Assignable.argMap (ArgMap.map_congr h)
  | actor a =>
      refine congrArg Assignable.actor (Actor.map_congr ?_)
      simpa [Assignable.leaves] using h
  | literal l =>
      exact congrArg Assignable.literal (Literal.map_congr (h _ (by simp [Assignable.leaves])))

theorem Inputs.map_congr {i : Inputs P} (h : ∀ l ∈ i.leaves, l.Agrees f g) :
    i.map f = i.map g := by
  cases i with
  | named id => exact congrArg Inputs.named (Ident.map_congr (h _ (by simp [Inputs.leaves])))
  | argMap m => exact congrArg Inputs.argMap (ArgMap.map_congr h)

theorem Statement.map_congr {st : Statement P} (h : ∀ l ∈ st.leaves .plain, l.Agrees f g) :
    st.map f = st.map g := by
  cases st with
  | assign target value =>
      simp only [Statement.leaves, List.forall_mem_cons] at h
      simp only [Statement.map, Ident.map_congr h.1, Assignable.map_congr h.2.2]
  | print actor pos =>
      simp only [Statement.leaves, List.forall_mem_cons, List.forall_mem_append] at h
      simp only [Statement.map, Actor.map_congr h.2.1, agrees_key.1 h.1]
  | execute actor inputs pos =>
      simp only [Statement.leaves, List.forall_mem_cons, List.forall_mem_append] at h
      simp only [Statement.map, Actor.map_congr h.2.1, Inputs.map_congr h.2.2.2.1,
        agrees_key.1 h.1]
  | ret value pos =>
      simp only [Statement.leaves, List.forall_mem_cons] at h
      simp only [Statement.map, Ident.map_congr h.2.1, agrees_key.1 h.1]

theorem Block.map_congr {b : Block P} {closer : TokenKind}
    (h : ∀ l ∈ b.leaves .plain closer, l.Agrees f g) : b.map f = b.map g := by
  obtain ⟨hpos, h⟩ := agrees_of_pin (by simp) h
  simp only [List.forall_mem_append, List.forall_mem_flatMap] at h
  have hmap : b.statements.map (Statement.map f) = b.statements.map (Statement.map g) :=
    List.map_congr_left fun st hst => Statement.map_congr (h.1 st hst).1
  simp only [Block.map, hmap, hpos]

theorem Function.map_congr {fn : Function P} (h : ∀ l ∈ fn.leaves .plain, l.Agrees f g) :
    fn.map f = fn.map g := by
  simp only [Function.leaves, Script.plain_call, List.forall_mem_cons, List.forall_mem_append] at h
  simp only [Function.map, Ident.map_congr h.2.1.1, Ident.row_map_congr h.2.2.1,
    Block.map_congr h.2.2.2.2.2, agrees_key.1 h.1]

/-- All places of a program are known to its frontier. -/
theorem Program.map_congr {p : Program P} (h : ∀ l ∈ p.frontier, l.Agrees f g) :
    p.map f = p.map g := by
  simp only [Program.frontier, Program.leaves, List.forall_mem_append, List.forall_mem_flatMap] at h
  have hmap : p.functions.map (Function.map f) = p.functions.map (Function.map g) :=
    List.map_congr_left fun fn hfn => Function.map_congr (h.1 fn hfn)
  simp only [Program.map, hmap, Block.map_congr h.2]

end Places

section Texts

def Leaf.worded (l : Leaf P) : Bool :=
  !l.kind.worded || l.text.isSome

@[simp] theorem Leaf.worded_mark (k : TokenKind) : (mark k : Leaf P).worded = !k.worded := by
  simp [Leaf.worded, mark]

@[simp] theorem Leaf.worded_key (k : TokenKind) (pos : P) : (key k pos).worded = !k.worded := by
  simp [Leaf.worded, key]

@[simp] theorem Leaf.worded_word (k : TokenKind) (x : String) (pos : P) :
    (word k x pos).worded = true := by
  simp [Leaf.worded, word]

@[simp] theorem Leaf.worded_commaRow (f : α → List (Leaf P)) (as : List α) :
    (commaRow f as).all worded = as.all fun a => (f a).all worded := by
  cases as with
  | nil => rfl
  | cons a as => simp [commaRow, List.all_flatMap, TokenKind.worded]

@[simp] theorem Ident.worded_leaf (id : Ident P) : id.leaf.worded = true :=
  worded_word _ _ _

@[simp] theorem TypeIdent.worded_leaf (type : TypeIdent P) : type.leaf.worded = true :=
  worded_word _ _ _

@[simp] theorem Reference.worded_leaf (r : Reference P) : r.leaf.worded = true := by
  cases r <;> exact worded_word _ _ _

@[simp] theorem Leaf.worded_verdict (v : Verdict) : (v.leaf : Leaf P).worded = true := rfl

@[simp] theorem Ident.worded_quotedLeaves (id : Ident P) :
    id.quotedLeaves.all Leaf.worded = true := by
  simp [Ident.quotedLeaves, TokenKind.worded]

@[simp] theorem Artifact.worded_leaves (a : Artifact P) : a.leaves.all Leaf.worded = true := by
  cases a <;> simp [Artifact.leaves, Reference.factoryLeaves, TokenKind.worded]

@[simp] theorem MapItem.worded_leaves (i : MapItem P) : i.leaves.all Leaf.worded = true := by
  obtain ⟨key, value⟩ := i
  match value with
  | none => simp [MapItem.leaves]
  | some (.artifact a) => simp [MapItem.leaves, MapValue.leaves, TokenKind.worded]
  | some (.artifactType type) => simp [MapItem.leaves, MapValue.leaves, TokenKind.worded]
  | some (.quoted id) => simp [MapItem.leaves, MapValue.leaves, TokenKind.worded]

@[simp] theorem ArgMap.worded_leaves (m : ArgMap P) : m.leaves.all Leaf.worded = true := by
  simp [ArgMap.leaves, TokenKind.worded]

@[simp] theorem Ident.worded_row (ids : List (Ident P)) :
    (Ident.row ids).all Leaf.worded = true := by
  simp [Ident.row]

@[simp] theorem Expr.worded_leaves (e : Expr P) : e.leaves.all Leaf.worded = true := by
  induction e <;> simp_all [Expr.leaves, TokenKind.worded]

@[simp] theorem Actor.worded_leaves (a : Actor P) :
    (a.leaves .plain).all Leaf.worded = true := by
  induction a <;>
    simp_all [Actor.leaves, Reference.factoryLeaves, TokenKind.worded]

@[simp] theorem Assignable.worded_leaves (v : Assignable P) :
    (v.leaves .plain).all Leaf.worded = true := by
  cases v with
  | literal l => simp [Assignable.leaves, Literal.leaf]
  | _ => simp [Assignable.leaves]

@[simp] theorem Statement.worded_leaves (st : Statement P) :
    (st.leaves .plain).all Leaf.worded = true := by
  cases st with
  | execute a inputs pos =>
      cases inputs <;> simp [Statement.leaves, Inputs.leaves, TokenKind.worded]
  | _ => simp [Statement.leaves, TokenKind.worded]

theorem Block.worded_leaves (closer : TokenKind) (hc : closer.worded = false) (b : Block P) :
    (b.leaves .plain closer).all Leaf.worded = true := by
  have hpin : ∀ ls : List (Leaf P), ls.all Leaf.worded = true →
      (pin b.pos ls).all Leaf.worded = true := by
    intro ls h
    cases ls with
    | nil => rfl
    | cons l ls => simpa [pin, Leaf.worded] using h
  have hdelimiter : TokenKind.delimiter.worded = false := rfl
  apply hpin
  simp [hc, hdelimiter, List.all_flatMap]

/-- Where the class of a token does not settle its text, the frontier of a program keeps it. -/
theorem Program.worded_frontier (p : Program P) : p.frontier.all Leaf.worded = true := by
  have hfunction : ∀ f : Function P, (f.leaves .plain).all Leaf.worded = true := by
    intro f
    have hbody := Block.worded_leaves .rbrace rfl f.body
    simp_all [Function.leaves, TokenKind.worded]
  have hbody := Block.worded_leaves .eof rfl p.body
  rw [Program.frontier, Program.leaves, List.all_append, List.all_flatMap, hbody]
  simp [hfunction]

end Texts

/-- The frontier of a program is the row of the tokens it was read from, transparent calls of the
actor factory apart. It settles their texts, and no place of the program is missing from it. -/
theorem Program.frontier_of_ofTokens [Inhabited P] {limits : Limits} {tokens : List (Token P)}
    {p : Program P} (ht : Terminated tokens) (h : Program.ofTokens limits tokens = .ok p) :
    List.Forall₂ Leaf.Matches p.frontier (Token.unwrapped tokens) ∧
      p.frontier.all Leaf.worded = true ∧
      ∀ {Q : Type} (f g : P → Q), (∀ l ∈ p.frontier, l.Agrees f g) → p.map f = p.map g := by
  refine ⟨?_, p.worded_frontier, fun f g => Program.map_congr⟩
  obtain ⟨ls, hls, hm⟩ := (Program.ofTokens_eq_ok ht).1 h
  obtain ⟨us, hus, he⟩ := hls.strips tokens hm
  have hall := he [] []
  rw [List.append_nil, Token.unwrap, List.append_nil] at hall
  rw [Token.unwrapped, hall]
  exact hus

def Token.wrappedSample : List (Token Nat) :=
  [⟨.func, "fun", 0⟩, ⟨.ident, "f", 1⟩, ⟨.lparen, "(", 2⟩, ⟨.rparen, ")", 3⟩, ⟨.lbrace, "\x7b", 4⟩,
    ⟨.rbrace, "\x7d", 5⟩, ⟨.ident, "x", 6⟩, ⟨.assign, "=", 7⟩,
    ⟨.actorFactory, "ActorFactory.create(", 8⟩, ⟨.ident, "f", 9⟩, ⟨.rparen, ")", 10⟩,
    ⟨.delimiter, ";", 11⟩, ⟨.print, "print(", 12⟩, ⟨.actorFactory, "ActorFactory.create(", 13⟩,
    ⟨.actorFactory, "ActorFactory.create(", 14⟩, ⟨.typeName, "Tool", 15⟩, ⟨.comma, ",", 16⟩,
    ⟨.str, "1", 17⟩, ⟨.rparen, ")", 18⟩, ⟨.rparen, ")", 19⟩, ⟨.rparen, ")", 20⟩,
    ⟨.delimiter, ";", 21⟩, ⟨.eof, "", 22⟩]

/-- The tree of the sample; the body of the function begins at its closing brace. -/
def Program.wrappedSample : Program Nat where
  functions := [⟨⟨"f", 1⟩, [], ⟨[], 5⟩, 0⟩]
  body :=
    ⟨[.assign ⟨"x", 6⟩ (.actor (.named ⟨"f", 9⟩)),
      .print (.atomic ⟨"Tool", 15⟩ (.literal ⟨"1", 17⟩) 14) 12], 6⟩

theorem Program.frontier_wrappedSample :
    Terminated Token.wrappedSample ∧
      Program.ofTokens ⟨2, 3⟩ Token.wrappedSample = .ok Program.wrappedSample ∧
      List.Forall₂ Leaf.Matches Program.wrappedSample.frontier
        (Token.unwrapped Token.wrappedSample) ∧
      (Token.unwrapped Token.wrappedSample).map Token.pos =
        [0, 1, 2, 3, 4, 5, 6, 7, 9, 11, 12, 14, 15, 16, 17, 18, 20, 21, 22] := by
  have hterm : Terminated Token.wrappedSample :=
    ⟨Token.wrappedSample.dropLast, ⟨.eof, "", 22⟩, by decide, rfl, by decide⟩
  have hok : Program.ofTokens ⟨2, 3⟩ Token.wrappedSample = .ok Program.wrappedSample := by
    decide +kernel
  exact ⟨hterm, hok, (Program.frontier_of_ofTokens hterm hok).1, by decide⟩

end ActorLang
