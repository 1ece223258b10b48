import ActorLang.Grammar
import Mathlib.Data.List.Basic

/-!
# The grammar and its derivations

The context-free grammar of the language, with one production for each rule, and what it means for
a row of token classes to be derivable. Nothing here says how a row is parsed: alternatives are not
ordered, and the rule for expressions is ambiguous.

`Form.Holds` reads a form with a meaning given to each rule. A meaning that is closed under all
productions holds of everything derivable, so that a statement about derivations has one case for
each rule and no induction of its own.
-/

namespace ActorLang

/-- The right side of a production. -/
inductive Form
  | token (k : TokenKind)
  | rule (r : Rule)
  | empty
  | seq (f g : Form)
  | alt (f g : Form)
  /-- Any number of times. -/
  | star (f : Form)

namespace Form

def row : List Form → Form
  | [] => empty
  | f :: fs => seq f (row fs)

/-- One of several forms, of which the first is given apart. -/
def choice (f : Form) : List Form → Form
  | [] => f
  | g :: gs => alt f (choice g gs)

def opt (f : Form) : Form :=
  alt f empty

def commaList (f : Form) : Form :=
  row [f, star (row [token .comma, f])]

end Form

open Form in
def Rule.production : Rule → Form
  | program => row [star (rule funDecl), rule stmtBlock, token .eof]
  | funDecl =>
    row [token .func, token .ident, token .lparen, opt (rule idList), token .rparen, token .lbrace,
      rule stmtBlock, token .rbrace]
  | stmtBlock => star (row [rule stmt, token .delimiter])
  | idList => commaList (token .ident)
  | stmt => choice (rule specStmt) [rule execStmt, rule returnStmt]
  | specStmt => row [token .ident, token .assign, rule assignable]
  | execStmt =>
    choice (row [token .print, rule actor, token .rparen])
      [row [token .execute, rule actor, token .comma, alt (token .ident) (rule argMap),
        token .rparen]]
  | returnStmt => row [token .ret, token .ident]
  | argMap => row [token .lbrace, rule mapItemList, token .rbrace]
  | mapItemList => commaList (rule mapItem)
  | mapItem =>
    row [rule quotedId, opt (row [token .colon,
      choice (rule artifact) [rule artifactType, rule quotedId]])]
  | assignable => choice (rule exp) [rule artifact, rule argMap, rule actor, token .str]
  | actor =>
    choice (row [token .actorFactory, rule actorType, token .comma, alt (token .ident) (token .str),
        token .rparen])
      [row [token .actorFactory, rule actor, token .rparen],
        row [token .ident, token .lparen, opt (rule idList), token .rparen],
        rule utilityActor,
        row [token .sequence, token .lparen, rule actor, token .comma, rule actor, token .rparen],
        row [token .ite, token .lparen, rule exp, token .comma, rule actor, token .comma,
          rule actor, token .rparen],
        row [token .iterate, token .lparen, rule quotedId, token .comma, rule actor,
          token .rparen],
        row [token .parallel, token .lparen, rule actor, token .comma, rule actor, token .rparen],
        token .ident,
        row [token .lparen, rule actor, token .rparen]]
  | utilityActor =>
    choice (row [token .joiner, token .lparen, rule artifactType, token .comma, rule argMap,
        token .comma, rule quotedId, token .rparen])
      [row [token .copy, token .lparen, rule argMap, token .rparen],
        row [token .rename, token .lparen, rule argMap, token .rparen],
        token .testSpecToSpec,
        token .specToTestSpec,
        row [token .identity, token .lparen, alt (rule actor) (rule argMap), token .rparen]]
  | artifact =>
    choice (row [token .artifactFactory, rule artifactType, token .comma,
      alt (token .ident) (token .str), token .rparen]) [token .ident]
  | artifactType => token .typeName
  | actorType => token .typeName
  | exp =>
    choice (row [rule exp, token .binOp, rule exp])
      [row [token .not, rule exp],
        row [token .instanceOf, token .lparen, token .ident, token .comma, rule artifactType,
          token .rparen],
        row [token .elementOf, token .lparen, token .ident, token .comma, token .lbrace,
          rule verdictList, token .rbrace, token .rparen],
        token .ident,
        row [token .lparen, rule exp, token .rparen]]
  | verdictList => commaList (token .verdict)
  | quotedId => row [token .quote, token .ident, token .quote]

namespace Form

/-- A row of token classes can be derived from a form. -/
inductive Derives : Form → List TokenKind → Prop
  | token (k : TokenKind) : Derives (token k) [k]
  | rule {r : Rule} {ks : List TokenKind} (h : Derives r.production ks) : Derives (rule r) ks
  | empty : Derives empty []
  | seq {f g : Form} {ks js : List TokenKind} (hf : Derives f ks) (hg : Derives g js) :
      Derives (seq f g) (ks ++ js)
  | left {f g : Form} {ks : List TokenKind} (h : Derives f ks) : Derives (alt f g) ks
  | right {f g : Form} {ks : List TokenKind} (h : Derives g ks) : Derives (alt f g) ks
  | starNil {f : Form} : Derives (star f) []
  | starCons {f : Form} {ks js : List TokenKind} (hf : Derives f ks)
      (hs : Derives (star f) js) : Derives (star f) (ks ++ js)

namespace Derives

variable {f : Form} {fs : List Form} {ks js : List TokenKind}

theorem nil : Derives (row []) [] := .empty

/-- The next form of a row. -/
theorem cons (hf : Derives f ks) (hfs : Derives (row fs) js) :
    Derives (row (f :: fs)) (ks ++ js) :=
  .seq hf hfs

/-- The next token of a row. -/
theorem mark (k : TokenKind) (hfs : Derives (row fs) ks) :
    Derives (row (.token k :: fs)) (k :: ks) :=
  .seq (.token k) hfs

/-- The next token of a row, by a rule that stands for it. -/
theorem ruleMark {r : Rule} {k : TokenKind} (hr : r.production = .token k)
    (hfs : Derives (row fs) ks) : Derives (row (.rule r :: fs)) (k :: ks) := by
  have hrule : Derives (.rule r) [k] := .rule (by rw [hr]; exact .token k)
  exact .seq hrule hfs

/-- The last form of a row. -/
theorem last (hf : Derives f ks) : Derives (row [f]) ks := by
  simpa using cons hf nil

/-- The alternative with a given number. -/
theorem nth {g : Form} {gs : List Form} (n : Nat) (hg : (f :: gs)[n]? = some g)
    (h : Derives g ks) : Derives (choice f gs) ks := by
  induction gs generalizing f n with
  | nil =>
      obtain rfl := List.mem_singleton.1 (List.mem_of_getElem? hg)
      exact h
  | cons g' gs ih =>
      cases n with
      | zero =>
          obtain rfl : f = g := Option.some.inj hg
          exact .left h
      | succ n => exact .right (ih n hg)

theorem optNone : Derives (opt f) [] :=
  .right .empty

theorem optSome (h : Derives f ks) : Derives (opt f) ks :=
  .left h

theorem stars {kss : List (List TokenKind)} (h : ∀ ks ∈ kss, Derives f ks) :
    Derives (.star f) kss.flatten := by
  induction kss with
  | nil => exact .starNil
  | cons ks kss ih =>
      obtain ⟨hks, hkss⟩ := List.forall_mem_cons.1 h
      exact .starCons hks (ih hkss)

end Derives

/-! ## Meanings of rules -/

variable {α : Type}

/-- A form read over rows of things, where `stands` says which things stand for a token of a class
and `I` gives rules their meaning. -/
def Holds (stands : α → TokenKind → Prop) (I : Rule → List α → Prop) : Form → List α → Prop
  | token k, ts => ∃ t, stands t k ∧ ts = [t]
  | rule r, ts => I r ts
  | empty, ts => ts = []
  | seq f g, ts => ∃ us vs, f.Holds stands I us ∧ g.Holds stands I vs ∧ ts = us ++ vs
  | alt f g, ts => f.Holds stands I ts ∨ g.Holds stands I ts
  | star f, ts =>
    ∃ parts : List (List α), (∀ us ∈ parts, f.Holds stands I us) ∧ ts = parts.flatten

/-- A meaning that is closed under all productions holds of everything derivable. -/
theorem Derives.holds {stands : α → TokenKind → Prop} {I : Rule → List α → Prop}
    (hI : ∀ r ts, r.production.Holds stands I ts → I r ts) {f : Form} {ks : List TokenKind}
    (h : f.Derives ks) {kind : α → TokenKind} {ts : List α} (hts : ts.map kind = ks)
    (hstands : ∀ t ∈ ts, stands t (kind t)) : f.Holds stands I ts := by
  induction h generalizing ts with
  | token k =>
      obtain ⟨t, rfl, rfl⟩ := List.map_eq_singleton_iff.1 hts
      exact ⟨t, hstands t (by simp), rfl⟩
  | rule h ih => exact hI _ ts (ih hts hstands)
  | empty => exact List.map_eq_nil_iff.1 hts
  | seq hf hg ihf ihg =>
      obtain ⟨us, vs, rfl, hus, hvs⟩ := List.map_eq_append_iff.1 hts
      obtain ⟨hsu, hsv⟩ := List.forall_mem_append.1 hstands
      exact ⟨us, vs, ihf hus hsu, ihg hvs hsv, rfl⟩
  | left h ih => exact .inl (ih hts hstands)
  | right h ih => exact .inr (ih hts hstands)
  | starNil => exact ⟨[], by simp, List.map_eq_nil_iff.1 hts⟩
  | starCons hf hs ihf ihs =>
      obtain ⟨us, vs, rfl, hus, hvs⟩ := List.map_eq_append_iff.1 hts
      obtain ⟨hsu, hsv⟩ := List.forall_mem_append.1 hstands
      obtain ⟨parts, hparts, rfl⟩ := ihs hvs hsv
      exact ⟨us :: parts, List.forall_mem_cons.2 ⟨ihf hus hsu, hparts⟩, rfl⟩

end Form

end ActorLang
