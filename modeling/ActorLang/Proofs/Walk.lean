import ActorLang.Proofs.Frontier
import ActorLang.Proofs.Lexer.Position
import ActorLang.Proofs.Relocate
import ActorLang.Tree.Event
import Mathlib.Data.List.Chain

/-!
# Walks follow the source

A walk enters the nodes of a parsed program in the order in which they stand in the source. Two
nodes that are entered one after the other are at the same place only where one begins with the
other: a block with its first statement, an actor with the utility that it is, and an operator with
its left operand. What a node keeps of its text stands in the source at the place it keeps with it.
-/

namespace ActorLang

variable {P α : Type}

/-! ## Words of nodes -/

def Ident.written (id : Ident P) : String × P :=
  (id.name, id.pos)

def TypeIdent.written (type : TypeIdent P) : String × P :=
  (type.name, type.pos)

def Literal.written (l : Literal P) : String × P :=
  (l.raw, l.pos)

def Reference.written : Reference P → String × P
  | name id => id.written
  | literal lit => lit.written

def Artifact.written : Artifact P → List (String × P)
  | literal type source _ => [type.written, source.written]
  | named id => [id.written]

/-- The words of a map entry. An artifact in it is a node of its own. -/
def MapItem.written (i : MapItem P) : List (String × P) :=
  i.key.written ::
    match i.value with
    | some (.artifactType type) => [type.written]
    | some (.quoted id) => [id.written]
    | some (.artifact _) | none => []

def Expr.written : Expr P → List (String × P)
  | not _ pos => [("NOT", pos)]
  | instanceOf subject type _ => [subject.written, type.written]
  | elementOf subject _ _ => [subject.written]
  | named id => [id.written]
  | parens _ pos => [("(", pos)]
  | binary _ op opPos _ => [(op.text, opPos)]

def Actor.written : Actor P → List (String × P)
  | atomic type source _ => [type.written, source.written]
  | call name args => name.written :: args.map Ident.written
  | joiner type _ output _ => [type.written, output.written]
  | iterate watched _ _ => [watched.written]
  | named id => [id.written]
  | parens _ pos => [("(", pos)]
  | copy .. | rename .. | testSpecToSpec .. | specToTestSpec .. | identity .. | identityMap ..
  | sequence .. | ifThenElse .. | parallel .. => []

def Statement.written : Statement P → List (String × P)
  | assign target _ => [target.written]
  | execute _ (.named id) _ => [id.written]
  | ret value _ => [value.written]
  | execute _ (.argMap _) _ | print .. => []

namespace Node

/-- The identifiers, type names and literals of a node with their places, and its operator,
negation or opening parenthesis. What belongs to a child is left to the child. -/
def written : Node P → List (String × P)
  | program _ | block _ | argMap _ => []
  | function f => f.name.written :: f.params.map Ident.written
  | statement s => s.written
  | actor a | utility a => a.written
  | expr e => e.written
  | mapItem i => i.written
  | artifact a => a.written
  | literal l => [l.written]

/-- A node begins with the node that is entered next. -/
def Shares : Node P → Node P → Prop
  | block b, statement s => b.statements.head? = some s
  | actor a, utility a' => a = a' ∧ a.isUtility = true
  | expr (.binary left _ _ _), expr e => e = left
  | _, _ => False

/-- A node stands behind the one entered before it, or that one begins with it. -/
def Follows (before : P → P → Prop) (n m : Node P) : Prop :=
  ∃ p q, n.pos? = some p ∧ m.pos? = some q ∧ (before p q ∨ p = q ∧ n.Shares m)

@[simp] theorem entered_around (n : Node P) (events : List (Event P)) :
    (n.around events).filterMap Event.entered? = n :: events.filterMap Event.entered? := by
  simp [around, Event.entered?]

end Node

namespace Leaf

def spelling (l : Leaf P) : Option String :=
  match l.kind with
  | .not => some "NOT"
  | .lparen => some "("
  | _ => l.text

def Spells (l : Leaf P) (w : String × P) : Prop :=
  l.spelling = some w.1 ∧ w.2 ∈ l.places

@[simp] theorem spells_ident (id : Ident P) : id.leaf.Spells id.written :=
  ⟨rfl, by simp [Ident.leaf, word, Ident.written]⟩

@[simp] theorem spells_typeIdent (type : TypeIdent P) : type.leaf.Spells type.written :=
  ⟨rfl, by simp [TypeIdent.leaf, word, TypeIdent.written]⟩

@[simp] theorem spells_literal (l : Literal P) : l.leaf.Spells l.written :=
  ⟨rfl, by simp [Literal.leaf, word, Literal.written]⟩

@[simp] theorem spells_reference (r : Reference P) : r.leaf.Spells r.written := by
  cases r with
  | name id => exact spells_ident id
  | literal lit => exact spells_literal lit

@[simp] theorem spells_not (pos : P) : (key .not pos).Spells ("NOT", pos) :=
  ⟨rfl, by simp [key]⟩

@[simp] theorem spells_lparen (pos : P) : (key .lparen pos).Spells ("(", pos) :=
  ⟨rfl, by simp [key]⟩

@[simp] theorem spells_binOp (op : BinOp) (pos : P) :
    (word .binOp op.text pos).Spells (op.text, pos) :=
  ⟨rfl, by simp [word]⟩

theorem mem_commaRow {f : α → List (Leaf P)} {a : α} {as : List α} {l : Leaf P} (ha : a ∈ as)
    (hl : l ∈ f a) : l ∈ commaRow f as := by
  cases as with
  | nil => cases ha
  | cons b as =>
      rcases List.mem_cons.1 ha with rfl | ha
      · exact List.mem_append_left _ hl
      · apply List.mem_append_right
        exact List.mem_flatMap.2 ⟨a, ha, List.mem_cons_of_mem _ hl⟩

theorem exists_matches_of_mem {ls : List (Leaf P)} {ts : List (Token P)}
    (h : List.Forall₂ Matches ls ts) {l : Leaf P} (hl : l ∈ ls) : ∃ t ∈ ts, l.Matches t := by
  induction h with
  | nil => cases hl
  | cons hmatch h ih =>
      rcases List.mem_cons.1 hl with rfl | hl
      · exact ⟨_, List.mem_cons_self, hmatch⟩
      · obtain ⟨t, ht, hmatch⟩ := ih hl
        exact ⟨t, List.mem_cons_of_mem _ ht, hmatch⟩

/-- The nodes of a part of a tree are those of a row of leaves: their words and places are in the
row, and they follow each other as the tokens of the row do. -/
structure Carries (before : P → P → Prop) (ls : List (Leaf P)) (ns : List (Node P)) : Prop where
  placed : ∀ n ∈ ns, ∃ l ∈ ls, ∃ p ∈ l.places, n.pos? = some p
  written : ∀ n ∈ ns, ∀ w ∈ n.written, ∃ l ∈ ls, l.Spells w
  follows : ∀ ts, List.Forall₂ Matches ls ts → (ts.Pairwise fun t u => before t.pos u.pos) →
    ns.IsChain (Node.Follows before)

namespace Carries

variable {before : P → P → Prop} {l : Leaf P} {ls ms : List (Leaf P)} {n m : Node P}
  {ns ks : List (Node P)}

theorem nil (ls : List (Leaf P)) : Carries before ls [] where
  placed := by simp
  written := by simp
  follows := by simp

/-- A node of a row is at the place of one of its tokens. -/
theorem exists_token (h : Carries before ls ns) (hn : n ∈ ns) {ts : List (Token P)}
    (hm : List.Forall₂ Matches ls ts) : ∃ t ∈ ts, n.pos? = some t.pos := by
  obtain ⟨l, hl, p, hp, hpos⟩ := h.placed n hn
  obtain ⟨t, ht, hmatch⟩ := exists_matches_of_mem hm hl
  exact ⟨t, ht, by rw [hpos, hmatch.places p hp]⟩

/-- The parts of a tree carry the parts of its row, and the nodes of one part come behind those of
the other. -/
theorem append (h : Carries before ls ns) (h' : Carries before ms ks) :
    Carries before (ls ++ ms) (ns ++ ks) where
  placed := by
    simp only [List.mem_append, or_imp, forall_and, or_and_right, exists_or]
    exact ⟨fun n hn => .inl (h.placed n hn), fun n hn => .inr (h'.placed n hn)⟩
  written := by
    simp only [List.mem_append, or_imp, forall_and, or_and_right, exists_or]
    exact ⟨fun n hn w hw => .inl (h.written n hn w hw),
      fun n hn w hw => .inr (h'.written n hn w hw)⟩
  follows := by
    intro ts hm hts
    obtain ⟨us, vs, hus, hvs, rfl⟩ := matches_append.1 hm
    obtain ⟨hu, hv, hcross⟩ := List.pairwise_append.1 hts
    refine List.isChain_append.2 ⟨h.follows us hus hu, h'.follows vs hvs hv, ?_⟩
    intro x hx y hy
    obtain ⟨t, ht, hxpos⟩ := h.exists_token (List.mem_of_getLast? hx) hus
    obtain ⟨u, hu, hypos⟩ := h'.exists_token (List.mem_of_head? hy) hvs
    exact ⟨_, _, hxpos, hypos, .inl (hcross t ht u hu)⟩

theorem skip (h : Carries before ls ns) (l : Leaf P) : Carries before (l :: ls) ns :=
  (nil [l]).append h

theorem behind (h : Carries before ls ns) (ms : List (Leaf P)) : Carries before (ls ++ ms) ns := by
  simpa using h.append (nil ms)

/-- A node whose token comes first is entered first. -/
theorem enter (h : Carries before ls ns) (hpos : ∃ p ∈ l.places, n.pos? = some p)
    (hw : ∀ w ∈ n.written, ∃ m ∈ l :: ls, m.Spells w) : Carries before (l :: ls) (n :: ns) where
  placed := by
    refine List.forall_mem_cons.2 ⟨⟨l, List.mem_cons_self, hpos⟩, ?_⟩
    exact (h.skip l).placed
  written := List.forall_mem_cons.2 ⟨hw, (h.skip l).written⟩
  follows := by
    intro ts hm hts
    obtain ⟨p, hp, hpos⟩ := hpos
    obtain ⟨t, us, ht, hus, rfl⟩ := List.forall₂_cons_left_iff.1 hm
    obtain ⟨hfirst, hrest⟩ := List.pairwise_cons.1 hts
    refine List.isChain_cons.2 ⟨fun y hy => ?_, h.follows us hus hrest⟩
    obtain ⟨u, hu, hypos⟩ := h.exists_token (List.mem_of_head? hy) hus
    rw [← ht.places p hp] at hpos
    exact ⟨_, _, hpos, hypos, .inl (hfirst u hu)⟩

theorem enter_key {k : TokenKind} {pos : P} (h : Carries before ls ns) (hpos : n.pos? = some pos)
    (hw : ∀ w ∈ n.written, ∃ m ∈ key k pos :: ls, m.Spells w) :
    Carries before (key k pos :: ls) (n :: ns) :=
  h.enter ⟨pos, List.mem_singleton_self pos, hpos⟩ hw

theorem enter_ident {id : Ident P} (h : Carries before ls ns) (hpos : n.pos? = some id.pos)
    (hw : ∀ w ∈ n.written, ∃ m ∈ id.leaf :: ls, m.Spells w) :
    Carries before (id.leaf :: ls) (n :: ns) :=
  h.enter ⟨id.pos, List.mem_singleton_self id.pos, hpos⟩ hw

/-- A node that begins with the first node of a row is entered before it. -/
theorem share (h : Carries before ls (m :: ns)) (hs : n.Shares m) (hpos : n.pos? = m.pos?)
    (hw : ∀ w ∈ n.written, ∃ l ∈ ls, l.Spells w) : Carries before ls (n :: m :: ns) where
  placed := by
    refine List.forall_mem_cons.2 ⟨?_, h.placed⟩
    rw [hpos]
    exact h.placed m List.mem_cons_self
  written := List.forall_mem_cons.2 ⟨hw, h.written⟩
  follows := by
    intro ts hm hts
    obtain ⟨l, -, p, -, hp⟩ := h.placed m List.mem_cons_self
    refine List.isChain_cons_cons.2 ⟨?_, h.follows ts hm hts⟩
    exact ⟨p, p, hpos.trans hp, hp, .inr ⟨rfl, hs⟩⟩

/-- A node that is pinned to the first token of a row is entered first, even if the row begins with
another node. -/
theorem pin {pos : P} (h : Carries before (l :: ls) (m :: ns))
    (hm : ∃ p ∈ l.places, m.pos? = some p) (hs : n.Shares m) (hpos : n.pos? = some pos)
    (hw : n.written = []) : Carries before (Leaf.pin pos (l :: ls)) (n :: m :: ns) := by
  have hmem : ∀ {Q : Leaf P → Prop}, (∃ k ∈ l :: ls, Q k) →
      (∀ k, Q k → Q ⟨k.kind, k.text, pos :: k.places⟩) → ∃ k ∈ Leaf.pin pos (l :: ls), Q k := by
    rintro Q ⟨k, hk, hQ⟩ hpin
    rcases List.mem_cons.1 hk with rfl | hk
    · exact ⟨_, List.mem_cons_self, hpin k hQ⟩
    · exact ⟨k, List.mem_cons_of_mem _ hk, hQ⟩
  constructor
  · refine List.forall_mem_cons.2 ⟨⟨_, List.mem_cons_self, pos, List.mem_cons_self, hpos⟩, ?_⟩
    intro k hk
    apply hmem (h.placed k hk)
    rintro l' ⟨p, hp, hkpos⟩
    exact ⟨p, List.mem_cons_of_mem _ hp, hkpos⟩
  · refine List.forall_mem_cons.2 ⟨by simp [hw], fun k hk w hkw => ?_⟩
    apply hmem (h.written k hk w hkw)
    rintro l' ⟨hspelling, hplace⟩
    exact ⟨hspelling, List.mem_cons_of_mem _ hplace⟩
  · intro ts hts hpair
    obtain ⟨t, us, ht, hus, rfl⟩ := List.forall₂_cons_left_iff.1 hts
    obtain ⟨htpos, ht⟩ := matches_pinned.1 ht
    obtain ⟨p, hp, hmpos⟩ := hm
    refine List.isChain_cons_cons.2 ⟨?_, h.follows _ (.cons ht hus) hpair⟩
    exact ⟨pos, p, hpos, hmpos, .inr ⟨htpos.symm.trans (ht.places p hp), hs⟩⟩

theorem flatMap {f : α → List (Leaf P)} {g : α → List (Node P)}
    (h : ∀ a, Carries before (f a) (g a)) (as : List α) :
    Carries before (as.flatMap f) (as.flatMap g) := by
  induction as with
  | nil => exact nil []
  | cons a as ih =>
      rw [List.flatMap_cons, List.flatMap_cons]
      exact (h a).append ih

theorem commaRow {f : α → List (Leaf P)} {g : α → List (Node P)}
    (h : ∀ a, Carries before (f a) (g a)) (as : List α) :
    Carries before (Leaf.commaRow f as) (as.flatMap g) := by
  cases as with
  | nil => exact nil []
  | cons a as =>
      rw [List.flatMap_cons]
      exact (h a).append (flatMap (fun b => (h b).skip (mark .comma)) as)

end Carries

end Leaf

open Leaf

variable (before : P → P → Prop)

theorem Ident.spells_row {ids : List (Ident P)} {ls : List (Leaf P)}
    (h : ∀ l ∈ Ident.row ids, l ∈ ls) : ∀ w ∈ ids.map Ident.written, ∃ l ∈ ls, l.Spells w := by
  intro w hw
  obtain ⟨id, hid, rfl⟩ := List.mem_map.1 hw
  exact ⟨id.leaf, h _ (mem_commaRow hid List.mem_cons_self), spells_ident id⟩

/-! ## Expressions and actors -/

theorem Literal.carries (l : Literal P) :
    Carries before [l.leaf] (l.events.filterMap Event.entered?) := by
  rw [Literal.events, Node.entered_around]
  exact .enter (.nil []) ⟨l.pos, List.mem_singleton_self l.pos, rfl⟩ (by simp [Node.written])

theorem Reference.carries (r : Reference P) :
    Carries before [r.leaf] (r.events.filterMap Event.entered?) := by
  cases r with
  | name id => exact .nil _
  | literal lit => exact lit.carries before

theorem Reference.carries_factoryLeaves (kind : TokenKind) (type : TypeIdent P)
    (source : Reference P) (pos : P) {n : Node P} (hpos : n.pos? = some pos)
    (hw : n.written = [type.written, source.written]) :
    Carries before (source.factoryLeaves kind type pos)
      (n :: source.events.filterMap Event.entered?) := by
  have hsource := ((source.carries before).behind [mark .rparen]).skip (mark .comma)
  exact .enter_key (hsource.skip type.leaf) hpos (by simp [hw])

theorem Artifact.carries (a : Artifact P) :
    Carries before a.leaves (a.events.filterMap Event.entered?) := by
  cases a with
  | literal type source pos =>
      rw [Artifact.events, Node.entered_around]
      exact source.carries_factoryLeaves before _ type pos rfl rfl
  | named id =>
      exact .enter_ident (.nil []) rfl (by simp [Node.written, Artifact.written])

theorem MapItem.carries (i : MapItem P) :
    Carries before i.leaves (i.events.filterMap Event.entered?) := by
  rw [MapItem.events, Node.entered_around]
  obtain ⟨key, value⟩ := i
  apply Carries.skip
  cases value with
  | none => exact .enter_ident (.nil _) rfl (by simp [Node.written, MapItem.written])
  | some value =>
      cases value with
      | artifact a =>
          have ha := ((a.carries before).skip (mark .colon)).skip (mark .quote)
          exact .enter_ident ha rfl (by simp [Node.written, MapItem.written])
      | artifactType type =>
          exact .enter_ident (.nil _) rfl
            (by simp [Node.written, MapItem.written, MapValue.leaves])
      | quoted id =>
          exact .enter_ident (.nil _) rfl
            (by simp [Node.written, MapItem.written, MapValue.leaves, Ident.quotedLeaves])

theorem ArgMap.carries (m : ArgMap P) :
    Carries before m.leaves (m.events.filterMap Event.entered?) := by
  rw [ArgMap.events, Node.entered_around, List.filterMap_flatMap]
  have hitems := Carries.commaRow (MapItem.carries before) m.items
  exact .enter_key (hitems.behind _) rfl (by simp [Node.written])

/-- A walk of an expression enters it first. -/
theorem Expr.exists_nodes (e : Expr P) :
    ∃ ns, e.events.filterMap Event.entered? = .expr e :: ns := by
  cases e <;> exact ⟨_, Node.entered_around _ _⟩

theorem Expr.carries (e : Expr P) :
    Carries before e.leaves (e.events.filterMap Event.entered?) := by
  induction e with
  | not operand pos ih =>
      rw [Expr.events, Node.entered_around]
      exact .enter_key ih rfl (by simp [Node.written, Expr.written])
  | parens inner pos ih =>
      rw [Expr.events, Node.entered_around]
      exact .enter_key (ih.behind _) rfl (by simp [Node.written, Expr.written])
  | instanceOf subject type pos =>
      exact .enter_key (.nil _) rfl (by simp [Node.written, Expr.written])
  | elementOf subject verdicts pos =>
      exact .enter_key (.nil _) rfl (by simp [Node.written, Expr.written])
  | named id =>
      exact .enter_ident (.nil _) rfl (by simp [Node.written, Expr.written])
  | binary left op opPos right ihl ihr =>
      have hrow := ihl.append (ihr.skip (word .binOp op.text opPos))
      rw [Expr.events, Node.entered_around, List.filterMap_append]
      obtain ⟨ns, hns⟩ := left.exists_nodes
      rw [hns] at hrow ⊢
      refine .share hrow rfl rfl ?_
      simp [Node.written, Expr.written, Expr.leaves, or_and_right, exists_or]

/-- A utility is entered right behind the actor that it is. -/
theorem Actor.carries_utility {a : Actor P} {k : TokenKind} {pos : P} {ls : List (Leaf P)}
    {ns : List (Node P)} (h : Carries before ls ns) (ha : a.isUtility = true) (hpos : a.pos = pos)
    (hw : ∀ w ∈ a.written, ∃ l ∈ key k pos :: ls, l.Spells w) :
    Carries before (key k pos :: ls) (.actor a :: .utility a :: ns) := by
  have hshares : (Node.actor a).Shares (.utility a) := ⟨rfl, ha⟩
  refine .share ?_ hshares rfl hw
  exact .enter_key h (congrArg some hpos) hw

theorem Actor.carries (a : Actor P) :
    Carries before (a.leaves .plain) (a.events.filterMap Event.entered?) := by
  induction a with
  | atomic type source pos =>
      rw [Actor.events, Node.entered_around]
      exact source.carries_factoryLeaves before _ type pos rfl rfl
  | call name args =>
      refine .enter_ident (.nil _) rfl ?_
      refine List.forall_mem_cons.2 ⟨⟨_, List.mem_cons_self, spells_ident name⟩, ?_⟩
      exact Ident.spells_row fun l hl => by simp [hl]
  | joiner type merge output pos =>
      rw [Actor.events, Node.entered_around, Node.entered_around]
      have hmerge := ((merge.carries before).behind
        (mark .comma :: (output.quotedLeaves ++ [mark .rparen]))).skip (mark .comma)
      refine Actor.carries_utility before ((hmerge.skip type.leaf).skip (mark .lparen)) rfl rfl ?_
      simp [Actor.written, Ident.quotedLeaves, or_and_right, exists_or]
  | copy map pos | rename map pos | identityMap map pos =>
      rw [Actor.events, Node.entered_around, Node.entered_around]
      have hmap := ((map.carries before).behind [mark .rparen]).skip (mark .lparen)
      exact Actor.carries_utility before hmap rfl rfl (by simp [Actor.written])
  | testSpecToSpec pos | specToTestSpec pos =>
      rw [Actor.events, Node.entered_around, Node.entered_around]
      exact Actor.carries_utility before (.nil []) rfl rfl (by simp [Actor.written])
  | identity target pos ih =>
      rw [Actor.events, Node.entered_around, Node.entered_around]
      have htarget := (ih.behind [mark .rparen]).skip (mark .lparen)
      exact Actor.carries_utility before htarget rfl rfl (by simp [Actor.written])
  | sequence first second pos ihf ihs | parallel first second pos ihf ihs =>
      rw [Actor.events, Node.entered_around, List.filterMap_append]
      have hsecond := (ihs.behind [mark .rparen]).skip (mark .comma)
      exact .enter_key ((ihf.append hsecond).skip (mark .lparen)) rfl
        (by simp [Node.written, Actor.written])
  | ifThenElse condition thenActor elseActor pos iht ihe =>
      rw [Actor.events, Node.entered_around, List.filterMap_append, List.filterMap_append,
        List.append_assoc]
      have helse := (ihe.behind [mark .rparen]).skip (mark .comma)
      have hthen := (iht.append helse).skip (mark .comma)
      exact .enter_key (((condition.carries before).append hthen).skip (mark .lparen)) rfl
        (by simp [Node.written, Actor.written])
  | iterate watched body pos ih =>
      rw [Actor.events, Node.entered_around]
      have hbody := (ih.behind [mark .rparen]).skip (mark .comma)
      have hrow := (Carries.nil watched.quotedLeaves).append hbody
      refine .enter_key (hrow.skip (mark .lparen)) rfl ?_
      simp [Node.written, Actor.written, Ident.quotedLeaves]
  | named id =>
      exact .enter_ident (.nil _) rfl (by simp [Node.written, Actor.written])
  | parens inner pos ih =>
      rw [Actor.events, Node.entered_around]
      exact .enter_key (ih.behind _) rfl (by simp [Node.written, Actor.written])

/-! ## Statements and programs -/

theorem Assignable.carries (v : Assignable P) :
    Carries before (v.leaves .plain) (v.events.filterMap Event.entered?) := by
  cases v with
  | expression e => exact e.carries before
  | artifact a => exact a.carries before
  | argMap m => exact m.carries before
  | actor a => simpa [Assignable.leaves, Assignable.events] using a.carries before
  | literal l => exact l.carries before

theorem Inputs.carries (i : Inputs P) :
    Carries before i.leaves (i.events.filterMap Event.entered?) := by
  cases i with
  | named id => exact .nil _
  | argMap m => exact m.carries before

/-- A statement is at the place of its first token. -/
theorem Statement.exists_leaves (st : Statement P) :
    ∃ l ls, st.leaves .plain = l :: ls ∧ st.pos ∈ l.places := by
  cases st with
  | assign target value => exact ⟨target.leaf, _, rfl, by simp [Ident.leaf, word, Statement.pos]⟩
  | print | execute | ret => exact ⟨_, _, rfl, by simp [key, Statement.pos]⟩

theorem Statement.carries (st : Statement P) :
    Carries before (st.leaves .plain) (st.events.filterMap Event.entered?) := by
  cases st with
  | assign target value =>
      rw [Statement.events, Node.entered_around]
      exact .enter_ident ((value.carries before).skip (mark .assign)) rfl
        (by simp [Node.written, Statement.written])
  | print actor pos =>
      rw [Statement.events, Node.entered_around]
      exact .enter_key ((actor.carries before).behind [mark .rparen]) rfl
        (by simp [Node.written, Statement.written])
  | execute actor inputs pos =>
      rw [Statement.events, Node.entered_around, List.filterMap_append]
      have hinputs := ((inputs.carries before).behind [mark .rparen]).skip (mark .comma)
      refine .enter_key ((actor.carries before).append hinputs) rfl ?_
      cases inputs with
      | named id =>
          simp [Node.written, Statement.written, Inputs.leaves, or_and_right, exists_or]
      | argMap m => simp [Node.written, Statement.written]
  | ret value pos =>
      exact .enter_key (.nil _) rfl (by simp [Node.written, Statement.written])

theorem Block.carries (closer : TokenKind) (b : Block P) :
    Carries before (b.leaves .plain closer) (b.events.filterMap Event.entered?) := by
  obtain ⟨statements, pos⟩ := b
  rw [Block.events, Node.entered_around, List.filterMap_flatMap]
  have hlines := Carries.flatMap (fun st : Statement P => (st.carries before).behind
    [mark .delimiter]) statements
  have hrow := hlines.behind [mark closer]
  cases statements with
  | nil =>
      -- An empty block is at the place of what closes it.
      exact .enter (.nil []) ⟨pos, List.mem_cons_self, rfl⟩ (by simp [Node.written])
  | cons st rest =>
      obtain ⟨l, ls, hleaves, hpos⟩ := st.exists_leaves
      have hnodes : ∃ ns, st.events.filterMap Event.entered? = .statement st :: ns :=
        ⟨_, Node.entered_around _ _⟩
      obtain ⟨ns, hns⟩ := hnodes
      simp only [Block.leaves, List.flatMap_cons, hleaves, hns, List.cons_append] at hrow ⊢
      exact .pin hrow ⟨st.pos, hpos, rfl⟩ rfl rfl rfl

theorem Function.carries (f : Function P) :
    Carries before (f.leaves .plain) (f.events.filterMap Event.entered?) := by
  rw [Function.events, Node.entered_around]
  have hbody := ((f.body.carries before .rbrace).skip (mark .lbrace)).skip (mark .rparen)
  have hparams := (Carries.nil (Ident.row f.params)).append hbody
  refine .enter_key ((hparams.skip (mark .lparen)).skip f.name.leaf) rfl ?_
  refine List.forall_mem_cons.2 ⟨⟨f.name.leaf, by simp, spells_ident f.name⟩, ?_⟩
  exact Ident.spells_row fun l hl => by simp [hl]

theorem Program.nodes_eq (p : Program P) : p.nodes = .program p ::
    (p.functions.flatMap Function.events ++ p.body.events).filterMap Event.entered? :=
  Node.entered_around _ _

theorem Program.carries (p : Program P) : Carries before p.frontier p.nodes.tail := by
  rw [Program.nodes_eq, List.tail_cons, List.filterMap_append, List.filterMap_flatMap]
  exact (Carries.flatMap (Function.carries before) p.functions).append (p.body.carries before .eof)

/-! ## Tokens and their places -/

/-- The word of a leaf is the text of its token. -/
theorem Leaf.Spells.eq_token {l : Leaf P} {w : String × P} {t : Token P} (h : l.Spells w)
    (hm : l.Matches t) (hnot : t.kind = .not → t.text = "NOT")
    (hparen : t.kind = .lparen → t.text = "(") : t.text = w.1 ∧ t.pos = w.2 := by
  obtain ⟨hspelling, hplace⟩ := h
  refine ⟨?_, hm.places _ hplace⟩
  unfold spelling at hspelling
  split at hspelling
  case h_1 hk => rw [hnot (hm.kind.trans hk), Option.some.inj hspelling]
  case h_2 hk => rw [hparen (hm.kind.trans hk), Option.some.inj hspelling]
  case h_3 => exact hm.text _ hspelling

/-- A refusal is at the place of one of the tokens. -/
theorem Program.exists_token_of_error [Inhabited P] {limits : Limits} {tokens : List (Token P)}
    {e : ParseError P} (hne : tokens ≠ []) (h : Program.ofTokens limits tokens = .error e) :
    ∃ t ∈ tokens, t.pos = e.pos := by
  -- The tokens can be placed in a type that has their places only.
  obtain ⟨first, hfirst⟩ := List.exists_mem_of_ne_nil tokens hne
  let own : Inhabited { p : P // ∃ t ∈ tokens, t.pos = p } := ⟨⟨first.pos, first, hfirst, rfl⟩⟩
  let placed : List (Token { p : P // ∃ t ∈ tokens, t.pos = p }) :=
    tokens.attach.map fun t => ⟨t.1.kind, t.1.text, t.1.pos, t.1, t.2, rfl⟩
  have hmap : placed.map (Token.map Subtype.val) = tokens := by
    rw [List.map_map]
    exact List.attach_map_subtype_val tokens
  have hplaced : placed ≠ [] := by
    rintro hnil
    rw [hnil] at hmap
    exact hne hmap.symm
  have hrun : Program.ofTokens limits (placed.map (Token.map Subtype.val)) = _ :=
    Program.ofTokens_map Subtype.val hplaced
  rw [hmap, h] at hrun
  cases hresult : Program.ofTokens limits placed with
  | ok p =>
      rw [hresult] at hrun
      cases hrun
  | error e' =>
      rw [hresult] at hrun
      obtain rfl : e = e'.map Subtype.val := Except.error.inj hrun
      exact e'.pos.2

/-- The walk of a program follows the tokens it was read from, however these are ordered. -/
theorem Program.walk_of_ofTokens [Inhabited P] {limits : Limits} {tokens : List (Token P)}
    {p : Program P} (hterm : Terminated tokens) (h : Program.ofTokens limits tokens = .ok p)
    (hspelled : ∀ t ∈ tokens, (t.kind = .not → t.text = "NOT") ∧ (t.kind = .lparen → t.text = "("))
    (hpairs : tokens.Pairwise fun t u => before t.pos u.pos) :
    (∀ n ∈ p.nodes, ∀ w ∈ n.written, ∃ t ∈ tokens, t.text = w.1 ∧ t.pos = w.2) ∧
      (∀ n ∈ p.nodes.tail, ∃ t ∈ tokens, n.pos? = some t.pos) ∧
      p.nodes.tail.IsChain (Node.Follows before) ∧
      ∀ {Q : Type} (f g : P → Q), (∀ t ∈ tokens, f t.pos = g t.pos) → p.map f = p.map g := by
  obtain ⟨ls, hls, hm⟩ := (Program.ofTokens_eq_ok hterm).1 h
  have hfrontier := hls.strips.unwrapped hm
  have hsub : (Token.unwrapped tokens).Sublist tokens := Token.unwrap_sublist [] tokens
  have hcarries := p.carries before
  refine ⟨?_, ?_, hcarries.follows _ hfrontier (hpairs.sublist hsub), ?_⟩
  · rw [Program.nodes_eq]
    refine List.forall_mem_cons.2 ⟨by simp [Node.written], fun n hn w hw => ?_⟩
    obtain ⟨l, hl, hspells⟩ := hcarries.written n (by rwa [Program.nodes_eq]) w hw
    obtain ⟨t, ht, hmatch⟩ := exists_matches_of_mem hfrontier hl
    obtain ⟨hnot, hparen⟩ := hspelled t (hsub.subset ht)
    exact ⟨t, hsub.subset ht, hspells.eq_token hmatch hnot hparen⟩
  · intro n hn
    obtain ⟨t, ht, hpos⟩ := hcarries.exists_token hn hfrontier
    exact ⟨t, hsub.subset ht, hpos⟩
  · intro Q f g hfg
    refine Program.map_congr fun l hl pos hpos => ?_
    obtain ⟨t, ht, hmatch⟩ := exists_matches_of_mem hfrontier hl
    rw [← hmatch.places pos hpos]
    exact hfg t (hsub.subset ht)

/-- Every place that a parse hands out is a true one. The words of the nodes stand in the source at
their places, and the nodes are entered in the order of the source. The tree depends on no place
that the source does not have, and a refusal is at a place of the source as well. -/
theorem Program.parse_positions (limits : Limits) {source : String}
    (hlength : source.length < UInt32.size - 1) :
    (∀ p, Program.parse limits source = .ok p →
      (∀ n ∈ p.nodes, ∀ w ∈ n.written, w.2.Shows source w.1) ∧
      (∀ n ∈ p.nodes.tail, ∃ pos, n.pos? = some pos ∧ pos.Shows source "") ∧
      p.nodes.tail.IsChain (Node.Follows Position.Before) ∧
      ∀ {Q : Type} (f g : Position → Q), (∀ pos, pos.Shows source "" → f pos = g pos) →
        p.map f = p.map g) ∧
    ∀ e, Program.parse limits source = .error e → e.pos.Shows source "" := by
  have hfit := Position.fit_of_length hlength
  cases htokens : tokenize source with
  | error fault =>
      have hparse : Program.parse limits source = .error fault := by
        rw [Program.parse, htokens]
        rfl
      rw [tokenize, Position.start_eq] at htokens
      obtain ⟨seen, after, hseen, hpos⟩ := Lexer.exists_behind_of_scan htokens
      rw [hparse]
      constructor
      · intro p hp
        cases hp
      · rintro e ⟨⟩
        rw [hpos, hfit.wrapped_behind ⟨after, hseen.symm⟩]
        exact Position.shows_of_append hfit hseen
  | ok tokens =>
      have hparse : Program.parse limits source = Program.ofTokens limits tokens := by
        rw [Program.parse, htokens]
        rfl
      have hshows := shows_of_tokenize hfit htokens
      obtain ⟨body, last, hbody, hlast, hall⟩ := Lexer.scan_spec htokens
      have hterm : Terminated tokens := ⟨body, last, hbody, hlast, fun t ht => (hall t ht).1⟩
      rw [hparse]
      constructor
      · intro p hp
        obtain ⟨hwritten, hplaced, hchain, hmap⟩ :=
          Program.walk_of_ofTokens Position.Before hterm hp (spelled_of_tokenize htokens)
            (splits_of_tokenize hfit htokens).pairwise
        refine ⟨fun n hn w hw => ?_, fun n hn => ?_, hchain, fun f g hfg => ?_⟩
        · obtain ⟨t, ht, htext, hpos⟩ := hwritten n hn w hw
          rw [← htext, ← hpos]
          exact hshows t ht
        · obtain ⟨t, ht, hpos⟩ := hplaced n hn
          exact ⟨t.pos, hpos, (hshows t ht).place⟩
        · exact hmap f g fun t ht => hfg t.pos (hshows t ht).place
      · intro e he
        have hne : tokens ≠ [] := by simp [hbody]
        obtain ⟨t, ht, hpos⟩ := Program.exists_token_of_error hne he
        rw [← hpos]
        exact (hshows t ht).place

def Program.placedSample : Program Position where
  functions := []
  body :=
    ⟨[.assign ⟨"x", ⟨1, 1, 0⟩⟩ (.expression (.binary (.parens (.named ⟨"a", ⟨1, 6, 5⟩⟩) ⟨1, 5, 4⟩)
      .eq ⟨1, 9, 8⟩ (.not (.named ⟨"b", ⟨1, 16, 15⟩⟩) ⟨1, 12, 11⟩)))], ⟨1, 1, 0⟩⟩

theorem Program.parse_positions_placedSample :
    "x = (a) == NOT b;".length < UInt32.size - 1 ∧
      Program.parse {} "x = (a) == NOT b;" = .ok Program.placedSample ∧
      (Program.placedSample.nodes.flatMap Node.written).map Prod.fst =
        ["x", "==", "(", "a", "NOT", "b"] ∧
      (∀ n ∈ Program.placedSample.nodes, ∀ w ∈ n.written, w.2.Shows "x = (a) == NOT b;" w.1) ∧
      Program.placedSample.nodes.tail.IsChain (Node.Follows Position.Before) := by
  have hlength : "x = (a) == NOT b;".length < UInt32.size - 1 := by decide
  have hparse : Program.parse {} "x = (a) == NOT b;" = .ok Program.placedSample := by
    decide +kernel
  obtain ⟨hwritten, -, hchain, -⟩ := (Program.parse_positions {} hlength).1 _ hparse
  exact ⟨hlength, hparse, rfl, hwritten, hchain⟩

end ActorLang
