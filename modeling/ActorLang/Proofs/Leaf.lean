import ActorLang.Token
import ActorLang.Tree.Printer
import Mathlib.Data.List.Forall2

/-!
# Leaves of trees

A tree read from left to right gives a row of leaves: the keywords and punctuation its nodes stand
for, and the names, literals, operators and verdicts it keeps. A leaf says what the tree knows of a
token, which is its class, often its text, and the places of the tree that must be the token's.

Where a name stands before a parenthesis, and where an assigned actor is only a name, the row
depends on who writes it; a `Script` settles both.
-/

namespace ActorLang

variable {P α : Type}

def TokenKind.worded : TokenKind → Bool
  | ident | typeName | str | binOp | verdict => true
  | _ => false

/-- What a tree knows of one token. -/
structure Leaf (P : Type) where
  kind : TokenKind
  /-- The text of the token, if the tree keeps it. -/
  text : Option String
  /-- The places in the tree that are the token's. -/
  places : List P

namespace Leaf

def mark (kind : TokenKind) : Leaf P :=
  ⟨kind, none, []⟩

def key (kind : TokenKind) (pos : P) : Leaf P :=
  ⟨kind, none, [pos]⟩

def word (kind : TokenKind) (text : String) (pos : P) : Leaf P :=
  ⟨kind, some text, [pos]⟩

/-- A token agrees with all that is known of it. -/
structure Matches (l : Leaf P) (t : Token P) : Prop where
  kind : t.kind = l.kind
  text : ∀ x ∈ l.text, t.text = x
  places : ∀ p ∈ l.places, t.pos = p

/-- A row whose first token is also at a given place. -/
def pin (pos : P) : List (Leaf P) → List (Leaf P)
  | [] => []
  | l :: ls => ⟨l.kind, l.text, pos :: l.places⟩ :: ls

def commaRow (f : α → List (Leaf P)) : List α → List (Leaf P)
  | [] => []
  | a :: rest => f a ++ rest.flatMap fun b => mark .comma :: f b

@[simp] theorem mark_kind (k : TokenKind) : (mark k : Leaf P).kind = k := rfl

@[simp] theorem key_kind (k : TokenKind) (pos : P) : (key k pos).kind = k := rfl

@[simp] theorem word_kind (k : TokenKind) (x : String) (pos : P) : (word k x pos).kind = k := rfl

@[simp] theorem map_kind_pin (pos : P) (ls : List (Leaf P)) :
    (pin pos ls).map kind = ls.map kind := by
  cases ls <;> rfl

@[simp] theorem pin_eq_nil {pos : P} {ls : List (Leaf P)} : pin pos ls = [] ↔ ls = [] := by
  cases ls <;> simp [pin]

@[simp] theorem matches_mark {k : TokenKind} {t : Token P} : (mark k).Matches t ↔ t.kind = k :=
  ⟨fun h => h.kind, fun h => ⟨h, by simp [mark], by simp [mark]⟩⟩

@[simp] theorem matches_key {k : TokenKind} {pos : P} {t : Token P} :
    (key k pos).Matches t ↔ t.kind = k ∧ t.pos = pos :=
  ⟨fun h => ⟨h.kind, h.places pos (by simp [key])⟩,
    fun h => ⟨h.1, by simp [key], by simpa [key] using h.2⟩⟩

@[simp] theorem matches_word {k : TokenKind} {x : String} {pos : P} {t : Token P} :
    (word k x pos).Matches t ↔ t = ⟨k, x, pos⟩ := by
  constructor
  · intro h
    have hk : t.kind = k := h.kind
    have hx : t.text = x := h.text x rfl
    have hp : t.pos = pos := h.places pos (by simp [word])
    cases t
    simp_all
  · rintro rfl
    exact ⟨rfl, by simp [word], by simp [word]⟩

theorem matches_pinned {l : Leaf P} {pos : P} {t : Token P} :
    (Leaf.mk l.kind l.text (pos :: l.places)).Matches t ↔ t.pos = pos ∧ l.Matches t := by
  constructor
  · intro h
    exact ⟨h.places pos (by simp), h.kind, h.text, fun p hp => h.places p (by simp [hp])⟩
  · rintro ⟨hpos, h⟩
    refine ⟨h.kind, h.text, fun p hp => ?_⟩
    rcases List.mem_cons.1 hp with rfl | hp
    · exact hpos
    · exact h.places p hp

/-- Tokens that match two rows end to end are cut where the first row ends. -/
theorem matches_append {ls ms : List (Leaf P)} {ts : List (Token P)} :
    List.Forall₂ Matches (ls ++ ms) ts ↔
      ∃ us vs, List.Forall₂ Matches ls us ∧ List.Forall₂ Matches ms vs ∧ ts = us ++ vs := by
  constructor
  · intro h
    induction ls generalizing ts with
    | nil => exact ⟨[], ts, .nil, h, rfl⟩
    | cons l ls ih =>
        obtain ⟨t, ts, ht, hts, rfl⟩ := List.forall₂_cons_left_iff.1 h
        obtain ⟨us, vs, hus, hvs, rfl⟩ := ih hts
        exact ⟨t :: us, vs, .cons ht hus, hvs, rfl⟩
  · rintro ⟨us, vs, hus, hvs, rfl⟩
    exact List.rel_append hus hvs

theorem map_kind_of_matches {ls : List (Leaf P)} {ts : List (Token P)}
    (h : List.Forall₂ Matches ls ts) : ls.map kind = ts.map Token.kind := by
  induction h with
  | nil => rfl
  | cons h _ ih => simp [h.kind, ih]

theorem matches_singleton {l : Leaf P} {ts : List (Token P)} :
    List.Forall₂ Matches [l] ts ↔ ∃ t, l.Matches t ∧ ts = [t] := by
  simp [List.forall₂_cons_left_iff]

theorem matches_concat {ls : List (Leaf P)} {l : Leaf P} {ts : List (Token P)} {t : Token P} :
    List.Forall₂ Matches (ls ++ [l]) (ts ++ [t]) ↔ List.Forall₂ Matches ls ts ∧ l.Matches t := by
  constructor
  · intro h
    obtain ⟨us, vs, hus, hvs, heq⟩ := matches_append.1 h
    obtain ⟨v, hv, rfl⟩ := matches_singleton.1 hvs
    obtain ⟨rfl, hlast⟩ := List.append_inj' heq rfl
    obtain rfl : t = v := by simpa using hlast
    exact ⟨hus, hv⟩
  · rintro ⟨hls, hl⟩
    exact List.rel_append hls (.cons hl .nil)

theorem pin_append {pos : P} {ls : List (Leaf P)} (hls : ls ≠ []) (ms : List (Leaf P)) :
    pin pos (ls ++ ms) = pin pos ls ++ ms := by
  obtain ⟨l, ls, rfl⟩ := List.exists_cons_of_ne_nil hls
  rfl

/-- A pinned row says more than the row itself. -/
theorem matches_of_pin {pos : P} {ls : List (Leaf P)} {ts : List (Token P)}
    (h : List.Forall₂ Matches (pin pos ls) ts) : List.Forall₂ Matches ls ts := by
  cases ls with
  | nil => exact h
  | cons l ls =>
      obtain ⟨t, ts, ht, hts, rfl⟩ := List.forall₂_cons_left_iff.1 h
      exact .cons (matches_pinned.1 ht).2 hts

theorem forall_mem_commaRow {Q : Leaf P → Prop} (hQ : Q (mark .comma)) {f : α → List (Leaf P)}
    {as : List α} : (∀ l ∈ commaRow f as, Q l) ↔ ∀ a ∈ as, ∀ l ∈ f a, Q l := by
  cases as with
  | nil => simp [commaRow]
  | cons a as =>
      simp only [commaRow, List.forall_mem_append, List.forall_mem_flatMap, List.forall_mem_cons,
        hQ, true_and]

end Leaf

open Leaf

/-! ## Names and argument maps -/

def Ident.leaf (id : Ident P) : Leaf P :=
  .word .ident id.name id.pos

def TypeIdent.leaf (type : TypeIdent P) : Leaf P :=
  .word .typeName type.name type.pos

def Literal.leaf (l : Literal P) : Leaf P :=
  .word .str l.raw l.pos

/-- A verdict keeps its text but no place. -/
def Verdict.leaf (v : Verdict) : Leaf P :=
  ⟨.verdict, some v.text, []⟩

def Ident.quotedLeaves (id : Ident P) : List (Leaf P) :=
  [mark .quote, id.leaf, mark .quote]

def Ident.row (ids : List (Ident P)) : List (Leaf P) :=
  commaRow (fun id => [id.leaf]) ids

def Reference.leaf : Reference P → Leaf P
  | name id => id.leaf
  | literal lit => lit.leaf

def Reference.factoryLeaves (kind : TokenKind) (type : TypeIdent P) (source : Reference P)
    (pos : P) : List (Leaf P) :=
  [key kind pos, type.leaf, mark .comma, source.leaf, mark .rparen]

def Artifact.leaves : Artifact P → List (Leaf P)
  | literal type source pos => source.factoryLeaves .artifactFactory type pos
  | named id => [id.leaf]

def MapValue.leaves : MapValue P → List (Leaf P)
  | artifact a => a.leaves
  | artifactType type => [type.leaf]
  | quoted id => id.quotedLeaves

def MapItem.leaves (i : MapItem P) : List (Leaf P) :=
  i.key.quotedLeaves ++
    match i.value with
    | none => []
    | some value => mark .colon :: value.leaves

def ArgMap.leaves (m : ArgMap P) : List (Leaf P) :=
  key .lbrace m.pos :: (commaRow MapItem.leaves m.items ++ [mark .rbrace])

/-! ## Expressions and actors -/

def Expr.leaves : Expr P → List (Leaf P)
  | not operand pos => key .not pos :: operand.leaves
  | instanceOf subject type pos =>
    [key .instanceOf pos, mark .lparen, subject.leaf, mark .comma, type.leaf, mark .rparen]
  | elementOf subject verdicts pos =>
    key .elementOf pos :: mark .lparen :: subject.leaf :: mark .comma :: mark .lbrace ::
      (commaRow (fun v => [v.leaf]) verdicts ++ [mark .rbrace, mark .rparen])
  | named id => [id.leaf]
  | parens inner pos => key .lparen pos :: (inner.leaves ++ [mark .rparen])
  | binary left op opPos right =>
    left.leaves ++ word .binOp op.text opPos :: right.leaves

/-- How names are written where their surroundings matter. -/
structure Script (P : Type) where
  /-- A name and the opening parenthesis behind it. -/
  call : Ident P → List (Leaf P)
  /-- The row of an assigned actor that is only a name. -/
  lone : List (Leaf P) → List (Leaf P)

def Script.plain : Script P where
  call name := [name.leaf, mark .lparen]
  lone ls := ls

@[simp] theorem Script.plain_call (name : Ident P) :
    Script.plain.call name = [name.leaf, mark .lparen] := rfl

@[simp] theorem Script.plain_lone (ls : List (Leaf P)) : Script.plain.lone ls = ls := rfl

def Actor.leaves (script : Script P) : Actor P → List (Leaf P)
  | atomic type source pos => source.factoryLeaves .actorFactory type pos
  | call name args => script.call name ++ (Ident.row args ++ [mark .rparen])
  | joiner type merge output pos =>
    key .joiner pos :: mark .lparen :: type.leaf :: mark .comma ::
      (merge.leaves ++ mark .comma :: (output.quotedLeaves ++ [mark .rparen]))
  | copy map pos => key .copy pos :: mark .lparen :: (map.leaves ++ [mark .rparen])
  | rename map pos => key .rename pos :: mark .lparen :: (map.leaves ++ [mark .rparen])
  | testSpecToSpec pos => [key .testSpecToSpec pos]
  | specToTestSpec pos => [key .specToTestSpec pos]
  | identity target pos =>
    key .identity pos :: mark .lparen :: (target.leaves script ++ [mark .rparen])
  | identityMap target pos =>
    key .identity pos :: mark .lparen :: (target.leaves ++ [mark .rparen])
  | sequence first second pos =>
    key .sequence pos :: mark .lparen ::
      (first.leaves script ++ mark .comma :: (second.leaves script ++ [mark .rparen]))
  | ifThenElse condition thenActor elseActor pos =>
    key .ite pos :: mark .lparen :: (condition.leaves ++ mark .comma ::
      (thenActor.leaves script ++ mark .comma :: (elseActor.leaves script ++ [mark .rparen])))
  | iterate watched body pos =>
    key .iterate pos :: mark .lparen ::
      (watched.quotedLeaves ++ mark .comma :: (body.leaves script ++ [mark .rparen]))
  | parallel first second pos =>
    key .parallel pos :: mark .lparen ::
      (first.leaves script ++ mark .comma :: (second.leaves script ++ [mark .rparen]))
  | named id => [id.leaf]
  | parens inner pos => key .lparen pos :: (inner.leaves script ++ [mark .rparen])

/-! ## Statements and programs -/

def Inputs.leaves : Inputs P → List (Leaf P)
  | named id => [id.leaf]
  | argMap m => m.leaves

def Assignable.leaves (script : Script P) : Assignable P → List (Leaf P)
  | expression e => e.leaves
  | artifact a => a.leaves
  | argMap m => m.leaves
  | actor a => if a.isName then script.lone (a.leaves script) else a.leaves script
  | literal l => [l.leaf]

def Statement.leaves (script : Script P) : Statement P → List (Leaf P)
  | assign target value => target.leaf :: mark .assign :: value.leaves script
  | print actor pos => key .print pos :: (actor.leaves script ++ [mark .rparen])
  | execute actor inputs pos =>
    key .execute pos ::
      (actor.leaves script ++ mark .comma :: (inputs.leaves ++ [mark .rparen]))
  | ret value pos => [key .ret pos, value.leaf]

/-- A block with what closes it. The block begins at the first token of this row, which is the
closer if there are no statements. -/
def Block.leaves (script : Script P) (closer : TokenKind) (b : Block P) : List (Leaf P) :=
  pin b.pos ((b.statements.flatMap fun s => s.leaves script ++ [mark .delimiter]) ++ [mark closer])

def Function.leaves (script : Script P) (f : Function P) : List (Leaf P) :=
  key .func f.pos :: (script.call f.name ++
    (Ident.row f.params ++ mark .rparen :: mark .lbrace :: f.body.leaves script .rbrace))

def Program.leaves (script : Script P) (p : Program P) : List (Leaf P) :=
  p.functions.flatMap (Function.leaves script) ++ p.body.leaves script .eof

/-- What a program says about the tokens it was read from, in order. -/
def Program.frontier (p : Program P) : List (Leaf P) :=
  p.leaves .plain

end ActorLang
