import ActorLang.Proofs.Lexer.Split
import ActorLang.Tree.Outline
import Mathlib.Data.List.Nodup

/-!
# Lines of an outline

The text of an outline determines the labels of a walk: the kind of each node that is entered, what
its line shows besides, and where nodes are left. Lines cannot be told apart by their line feeds,
because the text of a literal may contain some; it ends where its closing quote stands. The depth of
a line says how many nodes were left since the line before it.
-/

namespace ActorLang

open Lexer

variable {P : Type}

/-! ## Words and what stands behind them -/

namespace Lexer

/-- Two texts that are equal agree on the longest beginning of characters of a class. -/
theorem append_inj_of_ends {p : Char → Bool} {v w r s : List Char} (hv : ∀ c ∈ v, p c = true)
    (hw : ∀ c ∈ w, p c = true) (hr : ∀ c ∈ r.head?, p c = false)
    (hs : ∀ c ∈ s.head?, p c = false) (h : v ++ r = w ++ s) : v = w ∧ r = s := by
  have hvw : v = w := by
    rw [← takeWhile_append_of_ends hv hr, h, takeWhile_append_of_ends hw hs]
  subst hvw
  exact ⟨rfl, List.append_cancel_left h⟩

theorem append_inj_of_line {v w r s : List Char} (hv : '\n' ∉ v) (hw : '\n' ∉ w)
    (h : v ++ '\n' :: r = w ++ '\n' :: s) : v = w ∧ '\n' :: r = '\n' :: s := by
  have hline : ∀ {u : List Char}, '\n' ∉ u → ∀ c ∈ u, (c != '\n') = true := by
    intro u hu c hc
    simpa using ne_of_mem_of_not_mem hc hu
  exact append_inj_of_ends (hline hv) (hline hw) (by simp) (by simp) h

theorem Reads.unique {input text after text' after' : List Char} {kind kind' : Option TokenKind}
    (h : Reads input kind text after) (h' : Reads input kind' text' after') :
    text = text' ∧ after = after' := by
  obtain ⟨hpiece, rfl⟩ := h
  obtain ⟨hpiece', hrest⟩ := h'
  rw [hpiece] at hpiece'
  cases hpiece'
  exact ⟨rfl, List.append_cancel_left hrest⟩

/-- A literal ends by itself: the scanner takes the same one off both texts. -/
theorem IsLexeme.append_inj {x y : String} (hx : IsLexeme .str x) (hy : IsLexeme .str y)
    {r s : List Char} (h : x.toList ++ '\n' :: r = y.toList ++ '\n' :: s) :
    x.toList = y.toList ∧ '\n' :: r = '\n' :: s := by
  have hreads : ∀ {z : String} {t : List Char}, IsLexeme .str z →
      Reads (z.toList ++ '\n' :: t) (some .str) z.toList ('\n' :: t) := fun hz =>
    (isLexeme_iff.1 hz).reads (delimited_cons.2 rfl)
  exact (hreads hx).unique (h ▸ hreads hy)

end Lexer

namespace NodeKind

def all : List NodeKind :=
  [program, functionDeclaration, statementBlock, assignmentStatement, printActor, executeActor,
    returnStatement, atomic, functionCall, utility, sequence, ifThenElse, iterative, parallel,
    actorAlias, parenthesizedActor, joiner, copy, rename, testSpecToSpec, specToTestSpec, identity,
    not, instanceOf, elementOf, expressionAlias, parenthesizedExpression, binaryLogical,
    argumentMap, mapItem, artifactLiteral, artifactAlias, literal]

theorem mem_all (k : NodeKind) : k ∈ all := by
  cases k <;> decide

theorem name_injective : Function.Injective NodeKind.name := by
  have hnames : (all.map name).Nodup := by decide +kernel
  intro j k h
  exact List.inj_on_of_nodup_map hnames (mem_all j) (mem_all k) h

/-- The name of a kind is a word. -/
theorem isWord_name (k : NodeKind) : isWord k.name.toList = true := by
  cases k <;> decide

end NodeKind

/-! ## Labels -/

structure Label where
  kind : NodeKind
  detail : Option String
deriving DecidableEq

def Node.label (n : Node P) : Label :=
  ⟨n.kind, n.outlineDetail⟩

/-- What an outline keeps of a step: the label of a node that is entered, or that one is left. -/
def Event.label : Event P → Option Label
  | enter n => some n.label
  | exit _ => none

def labels (events : List (Event P)) : List (Option Label) :=
  events.map Event.label

@[simp] theorem labels_nil : labels ([] : List (Event P)) = [] := rfl

@[simp] theorem labels_append (es fs : List (Event P)) :
    labels (es ++ fs) = labels es ++ labels fs :=
  List.map_append

theorem labels_flatMap {α : Type} (as : List α) (f : α → List (Event P)) :
    labels (as.flatMap f) = as.flatMap fun a => labels (f a) :=
  List.map_flatMap ..

@[simp] theorem labels_around (n : Node P) (events : List (Event P)) :
    labels (n.around events) = some n.label :: (labels events ++ [none]) := by
  simp [labels, Node.around, Event.label]

namespace Label

def line (depth : Nat) (l : Label) : String :=
  let head := String.ofList (List.replicate (2 * depth) ' ') ++ l.kind.name
  match l.detail with
  | some detail => head ++ " " ++ detail ++ "\n"
  | none => head ++ "\n"

/-- A literal ends by itself, and any other detail is on one line. -/
def Legible (l : Label) : Prop :=
  ∀ x ∈ l.detail, (l.kind = .literal → IsLexeme .str x) ∧ (l.kind ≠ .literal → '\n' ∉ x.toList)

def ending (detail : Option String) : List Char :=
  match detail with
  | some x => ' ' :: (x.toList ++ ['\n'])
  | none => ['\n']

theorem toList_line (depth : Nat) (l : Label) : (l.line depth).toList =
    List.replicate (2 * depth) ' ' ++ (l.kind.name.toList ++ ending l.detail) := by
  cases hdetail : l.detail <;> simp [line, ending, hdetail]

/-- The detail of a label ends where its line does, or where the literal does that it shows. -/
theorem detail_append_inj {l m : Label} (hl : l.Legible) (hm : m.Legible)
    (hkind : l.kind = m.kind) {r s : List Char}
    (h : ending l.detail ++ r = ending m.detail ++ s) : l.detail = m.detail ∧ r = s := by
  cases hx : l.detail with
  | none =>
      cases hy : m.detail with
      | none =>
          rw [hx, hy] at h
          exact ⟨rfl, List.append_cancel_left h⟩
      | some y => simp [hx, hy, ending] at h
  | some x =>
      cases hy : m.detail with
      | none => simp [hx, hy, ending] at h
      | some y =>
          have htexts : x.toList ++ '\n' :: r = y.toList ++ '\n' :: s := by
            simpa [hx, hy, ending] using h
          obtain ⟨hxlit, hxline⟩ := hl x hx
          obtain ⟨hylit, hyline⟩ := hm y hy
          have hxy : x.toList = y.toList ∧ '\n' :: r = '\n' :: s := by
            by_cases hk : l.kind = .literal
            · exact (hxlit hk).append_inj (hylit (hkind ▸ hk)) htexts
            · exact append_inj_of_line (hxline hk) (hyline (hkind ▸ hk)) htexts
          obtain ⟨htext, hrest⟩ := hxy
          exact ⟨congrArg some (String.toList_injective htext), (List.cons.inj hrest).2⟩

/-- The first line of a text determines its depth, its label and the lines behind it. -/
theorem line_append_inj {l m : Label} (hl : l.Legible) (hm : m.Legible) {d e : Nat}
    {r s : List Char} (h : (l.line d).toList ++ r = (m.line e).toList ++ s) :
    d = e ∧ l = m ∧ r = s := by
  rw [toList_line, toList_line, List.append_assoc, List.append_assoc, List.append_assoc,
    List.append_assoc] at h
  have hblank : ∀ (n : Nat), ∀ c ∈ List.replicate n ' ', (c == ' ') = true := by
    intro n c hc
    simpa using (List.mem_replicate.1 hc).2
  have hname : ∀ (k : NodeKind) (t : List Char),
      ∀ c ∈ (k.name.toList ++ t).head?, (c == ' ') = false := by
    intro k t
    cases k <;> simp [NodeKind.name]
  obtain ⟨hdepth, h⟩ := append_inj_of_ends (hblank _) (hblank _) (hname _ _) (hname _ _) h
  have hword : ∀ (k : NodeKind), ∀ c ∈ k.name.toList, isWordChar c = true := fun k =>
    List.all_eq_true.1 (Bool.and_eq_true_iff.1 k.isWord_name).2
  have hending : ∀ (detail : Option String) (t : List Char),
      ∀ c ∈ (ending detail ++ t).head?, isWordChar c = false := by
    rintro (_ | x) t c hc
    · obtain rfl : '\n' = c := by simpa [ending] using hc
      rfl
    · obtain rfl : ' ' = c := by simpa [ending] using hc
      rfl
  obtain ⟨hkind, h⟩ := append_inj_of_ends (hword _) (hword _) (hending _ _) (hending _ _) h
  have hkind := NodeKind.name_injective (String.toList_injective hkind)
  obtain ⟨hdetail, hrest⟩ := detail_append_inj hl hm hkind h
  have hlength := congrArg List.length hdepth
  simp only [List.length_replicate] at hlength
  refine ⟨by omega, ?_, hrest⟩
  cases l
  cases m
  simp_all

end Label

/-! ## Depths -/

def levels : Nat → List (Option Label) → List (Nat × Label)
  | _, [] => []
  | depth, some l :: ls => (depth, l) :: levels (depth + 1) ls
  | depth, none :: ls => levels (depth - 1) ls

theorem toList_outlineFrom (depth : Nat) (events : List (Event P)) :
    (outlineFrom depth events).toList =
      (levels depth (labels events)).flatMap fun x => (x.2.line x.1).toList := by
  induction events generalizing depth with
  | nil => rfl
  | cons event events ih =>
      cases event with
      | enter n =>
          rw [outlineFrom, String.toList_append, ih]
          rfl
      | exit n => exact ih (depth - 1)

theorem mem_of_mem_levels {depth : Nat} {ls : List (Option Label)} {x : Nat × Label}
    (h : x ∈ levels depth ls) : some x.2 ∈ ls := by
  induction ls generalizing depth with
  | nil => cases h
  | cons l ls ih =>
      cases l with
      | none => exact List.mem_cons_of_mem _ (ih h)
      | some l =>
          rcases List.mem_cons.1 h with rfl | h
          · exact List.mem_cons_self
          · exact List.mem_cons_of_mem _ (ih h)

/-- Lines with their line ends can be told apart from the first one on. -/
theorem levels_inj_of_lines {xs ys : List (Nat × Label)} (hx : ∀ x ∈ xs, x.2.Legible)
    (hy : ∀ y ∈ ys, y.2.Legible)
    (h : (xs.flatMap fun x => (x.2.line x.1).toList) = ys.flatMap fun y => (y.2.line y.1).toList) :
    xs = ys := by
  have hne : ∀ x : Nat × Label, ∀ t, (x.2.line x.1).toList ++ t ≠ [] := by
    rintro ⟨d, k, detail⟩ t
    cases detail <;> simp [Label.toList_line, Label.ending]
  induction xs generalizing ys with
  | nil =>
      cases ys with
      | nil => rfl
      | cons y ys => exact absurd h.symm (hne y _)
  | cons x xs ih =>
      cases ys with
      | nil => exact absurd h (hne x _)
      | cons y ys =>
          obtain ⟨hx, hxs⟩ := List.forall_mem_cons.1 hx
          obtain ⟨hy, hys⟩ := List.forall_mem_cons.1 hy
          obtain ⟨hdepth, hlabel, hrest⟩ := Label.line_append_inj hx hy h
          rw [Prod.ext hdepth hlabel, ih hxs hys hrest]

/-- Every node that is entered is left, and so are `depth` nodes that were entered before. -/
def Falls : Nat → List (Option Label) → Prop
  | depth, [] => depth = 0
  | depth, some _ :: ls => Falls (depth + 1) ls
  | depth, none :: ls => 0 < depth ∧ Falls (depth - 1) ls

/-- A node that is entered after others were left is not deeper than they were. -/
theorem depth_le_of_levels {depth : Nat} {ls : List (Option Label)} :
    ∀ x ∈ (levels depth ls).head?, x.1 ≤ depth := by
  induction ls generalizing depth with
  | nil => simp [levels]
  | cons l ls ih =>
      cases l with
      | some l => simp [levels]
      | none =>
          intro x hx
          exact (ih x hx).trans (Nat.sub_le depth 1)

/-- A node that is entered and a node that is left lead to different depths. -/
theorem levels_some_ne_none {depth : Nat} {l : Label} {ls ms : List (Option Label)}
    (h : 0 < depth) : levels depth (some l :: ls) ≠ levels depth (none :: ms) := by
  intro heq
  have hhead : (depth, l) ∈ (levels (depth - 1) ms).head? := by
    rw [show levels (depth - 1) ms = levels depth (none :: ms) from rfl, ← heq]
    rfl
  have hle : depth ≤ depth - 1 := depth_le_of_levels _ hhead
  omega

/-- Depths say where nodes are left. -/
theorem levels_inj {depth : Nat} {ls ms : List (Option Label)} (hl : Falls depth ls)
    (hm : Falls depth ms) (h : levels depth ls = levels depth ms) : ls = ms := by
  induction ls generalizing depth ms with
  | nil =>
      obtain rfl : depth = 0 := hl
      match ms with
      | [] => rfl
      | some m :: ms => cases h
      | none :: ms => exact absurd hm.1 (Nat.lt_irrefl 0)
  | cons l ls ih =>
      match l, ms with
      | some l, [] => cases h
      | some l, some m :: ms =>
          obtain ⟨hhead, htail⟩ := List.cons.inj h
          obtain rfl : l = m := (Prod.mk.inj hhead).2
          rw [ih hl hm htail]
      | some l, none :: ms => exact absurd h (levels_some_ne_none hm.1)
      | none, [] =>
          obtain rfl : depth = 0 := hm
          exact absurd hl.1 (Nat.lt_irrefl 0)
      | none, some m :: ms => exact absurd h.symm (levels_some_ne_none hl.1)
      | none, none :: ms => rw [ih hl.2 hm.2 h]

/-! ## Walks -/

/-- A part of a walk: nodes are left as they were entered, and every detail can be read off its
line. -/
structure Outlined (es : List (Event P)) : Prop where
  falls : ∀ depth rest, Falls depth rest → Falls depth (labels es ++ rest)
  legible : ∀ l, some l ∈ labels es → l.Legible

namespace Outlined

theorem nil : Outlined ([] : List (Event P)) :=
  ⟨fun _ _ h => h, by simp⟩

theorem append {es fs : List (Event P)} (he : Outlined es) (hf : Outlined fs) :
    Outlined (es ++ fs) where
  falls depth rest h := by
    rw [labels_append, List.append_assoc]
    exact he.falls _ _ (hf.falls _ _ h)
  legible l h := by
    rcases List.mem_append.1 (labels_append es fs ▸ h) with h | h
    · exact he.legible l h
    · exact hf.legible l h

theorem around {n : Node P} {es : List (Event P)} (hn : n.label.Legible) (h : Outlined es) :
    Outlined (n.around es) where
  falls depth rest hrest := by
    have hes : Falls (depth + 1) (labels es ++ none :: rest) :=
      h.falls _ _ ⟨depth.succ_pos, hrest⟩
    simpa [Falls] using hes
  legible l hl := by
    rw [labels_around] at hl
    rcases List.mem_cons.1 hl with hl | hl
    · cases hl
      exact hn
    · exact h.legible l (by simpa using hl)

theorem flatMap {α : Type} {f : α → List (Event P)} {as : List α}
    (h : ∀ a ∈ as, Outlined (f a)) : Outlined (as.flatMap f) := by
  induction as with
  | nil => exact nil
  | cons a as ih =>
      obtain ⟨ha, has⟩ := List.forall_mem_cons.1 h
      exact ha.append (ih has)

end Outlined

/-- Two walks with the same outline have the same labels. -/
theorem labels_eq_of_outline {es fs : List (Event P)} (he : Outlined es) (hf : Outlined fs)
    (h : outlineFrom 0 es = outlineFrom 0 fs) : labels es = labels fs := by
  have htext := congrArg String.toList h
  rw [toList_outlineFrom, toList_outlineFrom] at htext
  have hlevels := levels_inj_of_lines (fun x hx => he.legible _ (mem_of_mem_levels hx))
    (fun x hx => hf.legible _ (mem_of_mem_levels hx)) htext
  exact levels_inj (by simpa using he.falls 0 [] rfl) (by simpa using hf.falls 0 [] rfl) hlevels

/-- Wherever two walks stand, equal labels from there on mean that a fact holds and that the labels
behind the walks are equal. -/
def Settles (es fs : List (Event P)) (p : Prop) : Prop :=
  ∀ r s, labels es ++ r = labels fs ++ s → p ∧ r = s

namespace Settles

variable {n m : Node P} {es es' fs fs' : List (Event P)} {p q : Prop}

theorem nil : Settles ([] : List (Event P)) [] True :=
  fun _ _ h => ⟨trivial, h⟩

theorem imp (h : Settles es fs p) (hpq : p → q) : Settles es fs q := by
  intro r s heq
  obtain ⟨hp, hrest⟩ := h r s heq
  exact ⟨hpq hp, hrest⟩

theorem symm (h : Settles es fs p) : Settles fs es p := by
  intro r s heq
  obtain ⟨hp, hrest⟩ := h s r heq.symm
  exact ⟨hp, hrest.symm⟩

/-- Walks that begin with different steps are never first in equal labels. -/
theorem of_ne {l m : Option Label} (he : (labels es).head? = some l)
    (hf : (labels fs).head? = some m) (hne : l ≠ m) : Settles es fs p := by
  intro r s heq
  obtain ⟨ls, hls⟩ := List.head?_eq_some_iff.1 he
  obtain ⟨ms, hms⟩ := List.head?_eq_some_iff.1 hf
  rw [hls, hms] at heq
  exact absurd (List.cons.inj heq).1 hne

theorem append (h : Settles es fs p) (h' : Settles es' fs' q) :
    Settles (es ++ es') (fs ++ fs') (p ∧ q) := by
  intro r s heq
  rw [labels_append, labels_append, List.append_assoc, List.append_assoc] at heq
  obtain ⟨hp, heq⟩ := h _ _ heq
  obtain ⟨hq, hrest⟩ := h' _ _ heq
  exact ⟨⟨hp, hq⟩, hrest⟩

/-- What two nodes have below them is compared once their lines show the same. -/
theorem enter (h : n.outlineDetail = m.outlineDetail → Settles es fs p) :
    Settles (.enter n :: es) (.enter m :: fs) p := by
  intro r s heq
  obtain ⟨hlabel, heq⟩ := List.cons.inj heq
  exact h (Label.mk.inj (Option.some.inj hlabel)).2 r s heq

theorem exit : Settles [.exit n] [.exit m] True :=
  fun _ _ heq => ⟨trivial, (List.cons.inj heq).2⟩

theorem around (h : n.outlineDetail = m.outlineDetail → Settles es fs p) :
    Settles (n.around es) (m.around fs) p :=
  enter fun hdetail => ((h hdetail).append exit).imp And.left

theorem of_kind_ne (h : (n.kind == m.kind) = false) : Settles (n.around es) (m.around fs) p :=
  of_ne rfl rfl fun heq => ne_of_beq_false h (Label.mk.inj (Option.some.inj heq)).1

theorem enter_exit : Settles (n.around es) [.exit m] p :=
  of_ne rfl rfl (Option.some_ne_none _)

theorem exit_enter : Settles [.exit n] (m.around fs) p :=
  enter_exit.symm

/-- Lists of walks, none of which begins as what stands behind the lists. -/
theorem flatMap {α : Type} {f : α → List (Event P)} {as bs : List α}
    (h : ∀ a ∈ as, ∀ b ∈ bs, Settles (f a) (f b) (a = b))
    (has : ∀ a ∈ as, Settles (f a) fs False) (hbs : ∀ b ∈ bs, Settles es (f b) False)
    (hend : Settles es fs p) :
    Settles (as.flatMap f ++ es) (bs.flatMap f ++ fs) (as = bs ∧ p) := by
  induction as generalizing bs with
  | nil =>
      cases bs with
      | nil => exact hend.imp fun hp => ⟨rfl, hp⟩
      | cons b bs =>
          intro r s heq
          rw [List.flatMap_cons, List.append_assoc, labels_append (f b), List.append_assoc] at heq
          exact (hbs b List.mem_cons_self _ _ heq).1.elim
  | cons a as ih =>
      cases bs with
      | nil =>
          intro r s heq
          rw [List.flatMap_cons, List.append_assoc, labels_append (f a), List.append_assoc] at heq
          exact (has a List.mem_cons_self _ _ heq).1.elim
      | cons b bs =>
          have hhead := h a List.mem_cons_self b List.mem_cons_self
          have htail := ih (fun a ha b hb => h a (.tail _ ha) b (.tail _ hb))
            (fun a ha => has a (.tail _ ha)) fun b hb => hbs b (.tail _ hb)
          rw [List.flatMap_cons, List.flatMap_cons, List.append_assoc, List.append_assoc]
          refine (hhead.append htail).imp ?_
          rintro ⟨rfl, rfl, hp⟩
          exact ⟨rfl, hp⟩

end Settles

end ActorLang
