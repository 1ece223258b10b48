import ActorLang.Proofs.Lexer
import ActorLang.Proofs.Parser.Program
import ActorLang.Proofs.Printer.Grouping

/-!
# Trees that have a row

Whether some row of leaves stands for a tree depends on three things: its argument maps and lists
of verdicts are not empty, its expressions are normal, and the room for nesting admits its depth.
Any row of a tree shows this, and it is enough for the row that is printed.
-/

namespace ActorLang

variable {P : Type}

/-! ## Maps and depth -/

section Filled

variable (E : Expr P → Prop)

/-- Every argument map has an entry, and the conditions are of a given kind. -/
def Actor.Filled : Actor P → Prop
  | joiner _ map _ _ | copy map _ | rename map _ | identityMap map _ => map.items ≠ []
  | identity a _ | iterate _ a _ | parens a _ => a.Filled
  | sequence a b _ | parallel a b _ => a.Filled ∧ b.Filled
  | ifThenElse e a b _ => E e ∧ a.Filled ∧ b.Filled
  | atomic .. | call .. | testSpecToSpec _ | specToTestSpec _ | named _ => True

/-- As for actors. A name alone is not assigned as an artifact. -/
def Assignable.Filled : Assignable P → Prop
  | expression e => E e
  | artifact (.named _) => False
  | artifact (.literal ..) | literal _ => True
  | argMap m => m.items ≠ []
  | actor a => a.Filled E

def Statement.Filled : Statement P → Prop
  | assign _ value => value.Filled E
  | print actor _ => actor.Filled E
  | execute actor inputs _ => actor.Filled E ∧ inputs.Filled
  | ret .. => True

end Filled

def Actor.depth : Actor P → Nat
  | identity a _ | iterate _ a _ | parens a _ => a.depth + 1
  | sequence a b _ | parallel a b _ => max a.depth b.depth + 1
  | ifThenElse e a b _ => max e.depth (max a.depth b.depth) + 1
  | atomic .. | call .. | joiner .. | copy .. | rename .. | testSpecToSpec _ | specToTestSpec _
  | identityMap .. | named _ => 1

/-- As for actors. A name is wrapped, which is one level more. -/
def Assignable.depth : Assignable P → Nat
  | expression e => e.depth
  | actor a => if a.isName then a.depth + 1 else a.depth
  | artifact _ | argMap _ | literal _ => 0

def Statement.depth : Statement P → Nat
  | assign _ value => value.depth
  | print actor _ | execute actor _ _ => actor.depth
  | ret .. => 0

def Program.statements (p : Program P) : List (Statement P) :=
  p.functions.flatMap (·.body.statements) ++ p.body.statements

def Program.Filled (E : Expr P → Prop) (p : Program P) : Prop :=
  ∀ st ∈ p.statements, st.Filled E

def Program.depth (p : Program P) : Nat :=
  (p.statements.map Statement.depth).foldr max 0

theorem Program.depth_le {p : Program P} {n : Nat} :
    p.depth ≤ n ↔ ∀ st ∈ p.statements, st.depth ≤ n := by
  unfold depth
  induction p.statements with
  | nil => simp
  | cons st sts ih =>
      rw [List.map_cons, List.foldr_cons, Nat.max_le, ih, List.forall_mem_cons]

section Change

variable {E E' : Expr P → Prop} {f : Expr P → Expr P}

theorem Actor.Filled.mapExprs {a : Actor P} (h : a.Filled E) (hf : ∀ e, E e → E' (f e)) :
    (a.mapExprs f).Filled E' := by
  induction a with
  | identity target pos ih => exact ih h
  | iterate watched body pos ih => exact ih h
  | parens inner pos ih => exact ih h
  | sequence a b pos iha ihb => exact ⟨iha h.1, ihb h.2⟩
  | parallel a b pos iha ihb => exact ⟨iha h.1, ihb h.2⟩
  | ifThenElse e a b pos iha ihb => exact ⟨hf e h.1, iha h.2.1, ihb h.2.2⟩
  | _ => exact h

theorem Actor.Filled.mapExprs_eq {a : Actor P} (h : a.Filled E) (hf : ∀ e, E e → f e = e) :
    a.mapExprs f = a := by
  induction a with
  | identity target pos ih => rw [Actor.mapExprs, ih h]
  | iterate watched body pos ih => rw [Actor.mapExprs, ih h]
  | parens inner pos ih => rw [Actor.mapExprs, ih h]
  | sequence a b pos iha ihb => rw [Actor.mapExprs, iha h.1, ihb h.2]
  | parallel a b pos iha ihb => rw [Actor.mapExprs, iha h.1, ihb h.2]
  | ifThenElse e a b pos iha ihb => rw [Actor.mapExprs, hf e h.1, iha h.2.1, ihb h.2.2]
  | _ => rfl

theorem Statement.Filled.mapExprs {st : Statement P} (h : st.Filled E)
    (hf : ∀ e, E e → E' (f e)) : (st.mapExprs f).Filled E' := by
  cases st with
  | assign target value =>
      cases value with
      | expression e => exact hf e h
      | actor a => exact Actor.Filled.mapExprs h hf
      | artifact a =>
          cases a with
          | named id => exact h.elim
          | literal => trivial
      | argMap | literal => exact h
  | print actor pos => exact Actor.Filled.mapExprs h hf
  | execute actor inputs pos => exact ⟨Actor.Filled.mapExprs h.1 hf, h.2⟩
  | ret => trivial

theorem Statement.Filled.mapExprs_eq {st : Statement P} (h : st.Filled E)
    (hf : ∀ e, E e → f e = e) : st.mapExprs f = st := by
  cases st with
  | assign target value =>
      cases value with
      | expression e => rw [Statement.mapExprs, Assignable.mapExprs, hf e h]
      | actor a => rw [Statement.mapExprs, Assignable.mapExprs, Actor.Filled.mapExprs_eq h hf]
      | _ => rfl
  | print actor pos => rw [Statement.mapExprs, Actor.Filled.mapExprs_eq h hf]
  | execute actor inputs pos => rw [Statement.mapExprs, Actor.Filled.mapExprs_eq h.1 hf]
  | ret => rfl

theorem Program.statements_mapExprs (p : Program P) :
    (p.mapExprs f).statements = p.statements.map (Statement.mapExprs f) := by
  simp [statements, Program.mapExprs, Function.mapExprs, Block.mapExprs, List.map_flatMap,
    List.flatMap_map]

theorem Program.Filled.mapExprs {p : Program P} (h : p.Filled E) (hf : ∀ e, E e → E' (f e)) :
    (p.mapExprs f).Filled E' := by
  intro _ hst
  rw [statements_mapExprs] at hst
  obtain ⟨st, hmem, rfl⟩ := List.mem_map.1 hst
  exact (h st hmem).mapExprs hf

theorem Program.Filled.mapExprs_eq {p : Program P} (h : p.Filled E) (hf : ∀ e, E e → f e = e) :
    p.mapExprs f = p := by
  have hblock : ∀ b : Block P, (∀ st ∈ b.statements, st.Filled E) → b.mapExprs f = b := by
    intro b hb
    have hmap : b.statements.map (Statement.mapExprs f) = b.statements :=
      (List.map_congr_left fun st hst => (hb st hst).mapExprs_eq hf).trans (List.map_id' _)
    rw [Block.mapExprs, hmap]
  simp only [Filled, statements, List.forall_mem_append, List.forall_mem_flatMap] at h
  have hfs : p.functions.map (Function.mapExprs f) = p.functions := by
    refine (List.map_congr_left fun g hg => ?_).trans (List.map_id' _)
    rw [Function.mapExprs, hblock g.body (h.1 g hg)]
  rw [Program.mapExprs, hfs, hblock p.body h.2]

end Change

/-! ## Rows of actors -/

theorem Actor.exists_room {a : Actor P} {n : Nat} (h : a.depth ≤ n) : ∃ m, n = m + 1 := by
  have hpos : 0 < a.depth := by
    cases a <;> exact Nat.succ_pos _
  exact Nat.exists_eq_add_one.2 (Nat.lt_of_lt_of_le hpos h)

/-- What the parser gives has entries in all maps, and no more depth than there was room. -/
theorem Actor.Spelling.filled {n : Nat} {a : Actor P} {ls : List (Leaf P)}
    (h : a.Spelling n ls) : a.Filled Expr.Normal ∧ a.depth ≤ n := by
  induction h with
  | @flat n a hflat =>
      cases a with
      | identity | sequence | ifThenElse | iterate | parallel | parens => exact hflat.elim
      | _ => exact ⟨hflat, Nat.le_add_left 1 n⟩
  | wrapped h ih => exact ⟨ih.1, Nat.le_succ_of_le ih.2⟩
  | identity h pos ih => exact ⟨ih.1, Nat.succ_le_succ ih.2⟩
  | iterate watched h pos ih => exact ⟨ih.1, Nat.succ_le_succ ih.2⟩
  | parens h pos ih => exact ⟨ih.1, Nat.succ_le_succ ih.2⟩
  | sequence ha hb pos iha ihb =>
      exact ⟨⟨iha.1, ihb.1⟩, Nat.succ_le_succ (Nat.max_le.2 ⟨iha.2, ihb.2⟩)⟩
  | parallel ha hb pos iha ihb =>
      exact ⟨⟨iha.1, ihb.1⟩, Nat.succ_le_succ (Nat.max_le.2 ⟨iha.2, ihb.2⟩)⟩
  | ifThenElse he hd ha hb pos iha ihb =>
      refine ⟨⟨he, iha.1, ihb.1⟩, Nat.succ_le_succ ?_⟩
      exact Nat.max_le.2 ⟨hd, Nat.max_le.2 ⟨iha.2, ihb.2⟩⟩

/-- A row of a name that is not the name itself nests it once more. -/
theorem Actor.Spelling.depth_lt {n : Nat} {a : Actor P} {ls : List (Leaf P)}
    (h : a.Spelling n ls) (hname : a.isName = true) (hls : ls ≠ a.leaves .plain) :
    a.depth < n := by
  induction h with
  | flat => exact absurd rfl hls
  | wrapped h ih => exact Nat.lt_succ_of_le h.filled.2
  | parens h pos ih =>
      refine Nat.succ_lt_succ (ih hname ?_)
      rintro rfl
      exact hls rfl
  | identity | sequence | ifThenElse | iterate | parallel => cases hname

theorem Actor.spelling_plain {n : Nat} {a : Actor P} (h : a.Filled Expr.Normal)
    (hd : a.depth ≤ n) : a.Spelling n (a.leaves .plain) := by
  induction a generalizing n with
  | identity a pos ih =>
      obtain ⟨n, rfl⟩ := exists_room hd
      exact .identity (ih h (Nat.le_of_succ_le_succ hd)) pos
  | iterate watched a pos ih =>
      obtain ⟨n, rfl⟩ := exists_room hd
      exact .iterate watched (ih h (Nat.le_of_succ_le_succ hd)) pos
  | parens a pos ih =>
      obtain ⟨n, rfl⟩ := exists_room hd
      exact .parens (ih h (Nat.le_of_succ_le_succ hd)) pos
  | sequence a b pos iha ihb =>
      obtain ⟨n, rfl⟩ := exists_room hd
      obtain ⟨hda, hdb⟩ := Nat.max_le.1 (Nat.le_of_succ_le_succ hd)
      exact .sequence (iha h.1 hda) (ihb h.2 hdb) pos
  | parallel a b pos iha ihb =>
      obtain ⟨n, rfl⟩ := exists_room hd
      obtain ⟨hda, hdb⟩ := Nat.max_le.1 (Nat.le_of_succ_le_succ hd)
      exact .parallel (iha h.1 hda) (ihb h.2 hdb) pos
  | ifThenElse e a b pos iha ihb =>
      obtain ⟨n, rfl⟩ := exists_room hd
      obtain ⟨hde, hd⟩ := Nat.max_le.1 (Nat.le_of_succ_le_succ hd)
      obtain ⟨hda, hdb⟩ := Nat.max_le.1 hd
      exact .ifThenElse h.1 hde (iha h.2.1 hda) (ihb h.2.2 hdb) pos
  | _ =>
      obtain ⟨n, rfl⟩ := exists_room hd
      exact .flat h

/-! ## Printed rows -/

open Leaf

/-- Names as they are printed. A fused name and the parenthesis behind it are one token, and an
assigned actor that is only a name is wrapped. -/
def Script.printed : Script P where
  call name :=
    if name.name = "print" then [mark .print]
    else if name.name = "execute" then [mark .execute]
    else [name.leaf, mark .lparen]
  lone ls := mark .actorFactory :: (ls ++ [mark .rparen])

theorem Script.printed_call {name : Ident P} (h : name.name ∉ Lexer.fusedNames) :
    Script.printed.call name = [name.leaf, mark .lparen] := by
  simp only [Lexer.fusedNames, List.mem_cons, List.not_mem_nil, or_false, not_or] at h
  simp [Script.printed, h.1, h.2]

def Actor.callees : Actor P → List String
  | call name _ => [name.name]
  | identity a _ | iterate _ a _ | parens a _ => a.callees
  | sequence a b _ | parallel a b _ | ifThenElse _ a b _ => a.callees ++ b.callees
  | atomic .. | joiner .. | copy .. | rename .. | testSpecToSpec _ | specToTestSpec _
  | identityMap .. | named _ => []

def Statement.callees : Statement P → List String
  | assign _ (.actor a) | print a _ | execute a _ _ => a.callees
  | assign _ _ | ret .. => []

def Block.callees (b : Block P) : List String :=
  b.statements.flatMap Statement.callees

/-- The names of the functions that a program declares or calls. -/
def Program.callees (p : Program P) : List String :=
  (p.functions.flatMap fun f => f.name.name :: f.body.callees) ++ p.body.callees

theorem Actor.callees_mapExprs (f : Expr P → Expr P) (a : Actor P) :
    (a.mapExprs f).callees = a.callees := by
  induction a with
  | identity target pos ih => exact ih
  | iterate watched body pos ih => exact ih
  | parens inner pos ih => exact ih
  | sequence a b pos iha ihb => exact congrArg₂ (· ++ ·) iha ihb
  | parallel a b pos iha ihb => exact congrArg₂ (· ++ ·) iha ihb
  | ifThenElse e a b pos iha ihb => exact congrArg₂ (· ++ ·) iha ihb
  | _ => rfl

theorem Statement.callees_mapExprs (f : Expr P → Expr P) (st : Statement P) :
    (st.mapExprs f).callees = st.callees := by
  cases st with
  | assign target value =>
      cases value with
      | actor a => exact a.callees_mapExprs f
      | _ => rfl
  | print actor pos => exact actor.callees_mapExprs f
  | execute actor inputs pos => exact actor.callees_mapExprs f
  | ret => rfl

theorem Program.callees_mapExprs (f : Expr P → Expr P) (p : Program P) :
    (p.mapExprs f).callees = p.callees := by
  have hblock : ∀ b : Block P, (b.mapExprs f).callees = b.callees := fun b => by
    simp only [Block.callees, Block.mapExprs, List.flatMap_map, Statement.callees_mapExprs]
  simp only [Program.callees, Program.mapExprs, List.flatMap_map, Function.mapExprs, hblock]

/-- Without fused names, printing changes no token of an actor. -/
theorem Actor.leaves_printed {a : Actor P} (h : ∀ x ∈ a.callees, x ∉ Lexer.fusedNames) :
    a.leaves .printed = a.leaves .plain := by
  induction a with
  | call name args =>
      rw [Actor.leaves, Script.printed_call (h _ (by simp [callees])), Actor.leaves,
        Script.plain_call]
  | identity a pos ih => rw [Actor.leaves, ih h, Actor.leaves]
  | iterate watched a pos ih => rw [Actor.leaves, ih h, Actor.leaves]
  | parens a pos ih => rw [Actor.leaves, ih h, Actor.leaves]
  | sequence a b pos iha ihb =>
      obtain ⟨ha, hb⟩ := List.forall_mem_append.1 h
      rw [Actor.leaves, iha ha, ihb hb, Actor.leaves]
  | parallel a b pos iha ihb =>
      obtain ⟨ha, hb⟩ := List.forall_mem_append.1 h
      rw [Actor.leaves, iha ha, ihb hb, Actor.leaves]
  | ifThenElse e a b pos iha ihb =>
      obtain ⟨ha, hb⟩ := List.forall_mem_append.1 h
      rw [Actor.leaves, iha ha, ihb hb, Actor.leaves]
  | _ => rfl

/-! ## Rows of programs -/

section Rows

variable {limits : Limits}

theorem Assignable.Spelling.filled {room : Nat} {v : Assignable P} {ls : List (Leaf P)}
    (h : v.Spelling limits room ls) : v.Filled Expr.Normal ∧ v.depth ≤ room := by
  obtain ⟨-, h⟩ := h
  cases v with
  | expression e => exact ⟨h.1, h.2.1⟩
  | artifact a =>
      cases a with
      | named id => exact h.elim
      | literal => exact ⟨trivial, Nat.zero_le _⟩
  | argMap m => exact ⟨h.1, Nat.zero_le _⟩
  | literal l => exact ⟨trivial, Nat.zero_le _⟩
  | actor a =>
      obtain ⟨ha, hls⟩ := h
      refine ⟨ha.filled.1, ?_⟩
      cases hname : a.isName with
      | true =>
          simpa [Assignable.depth, hname] using Nat.succ_le_of_lt (ha.depth_lt hname (hls hname))
      | false => simpa [Assignable.depth, hname] using ha.filled.2

theorem Statement.Spelling.filled {st : Statement P} {ls : List (Leaf P)}
    (h : st.Spelling limits ls) : st.Filled Expr.Normal ∧ st.depth ≤ limits.depth := by
  cases st with
  | assign target value =>
      obtain ⟨row, hrow, -⟩ := h
      exact hrow.filled
  | print actor pos =>
      obtain ⟨row, hrow, -⟩ := h
      exact hrow.filled
  | execute actor inputs pos =>
      obtain ⟨row, hrow, hinputs, -⟩ := h
      exact ⟨⟨hrow.filled.1, hinputs⟩, hrow.filled.2⟩
  | ret => exact ⟨trivial, Nat.zero_le _⟩

theorem Leaf.Concat.exists_row {α : Type} {R : α → List (Leaf P) → Prop} {as : List α}
    {ls : List (Leaf P)} (h : Leaf.Concat R as ls) {a : α} (ha : a ∈ as) : ∃ row, R a row := by
  induction as generalizing ls with
  | nil => simp at ha
  | cons b as ih =>
      obtain ⟨row, rest, hrow, hrest, -⟩ := h
      rcases List.mem_cons.1 ha with rfl | ha
      · exact ⟨row, hrow⟩
      · exact ih hrest ha

theorem Block.Spelling.filled {closer : TokenKind} {b : Block P} {ls : List (Leaf P)}
    (h : b.Spelling limits closer ls) {st : Statement P} (hst : st ∈ b.statements) :
    st.Filled Expr.Normal ∧ st.depth ≤ limits.depth := by
  obtain ⟨rows, hrows, -⟩ := h
  obtain ⟨_, row, hrow, -⟩ := hrows.exists_row hst
  exact hrow.filled

/-- What any row of a program shows. -/
theorem Program.Spelling.filled {p : Program P} {ls : List (Leaf P)}
    (h : p.Spelling limits ls) : p.Filled Expr.Normal ∧ p.depth ≤ limits.depth := by
  have hall : ∀ st ∈ p.statements, st.Filled Expr.Normal ∧ st.depth ≤ limits.depth := by
    obtain ⟨fs, body, hfs, hbody, -⟩ := h
    refine List.forall_mem_append.2 ⟨List.forall_mem_flatMap.2 fun f hf st hst => ?_, ?_⟩
    · obtain ⟨_, row, hrow, -⟩ := hfs.exists_row hf
      exact hrow.filled hst
    · exact fun st hst => hbody.filled hst
  exact ⟨fun st hst => (hall st hst).1, depth_le.2 fun st hst => (hall st hst).2⟩

theorem Assignable.spelling_printed (hl : 2 ≤ limits.lookahead) {room : Nat} {v : Assignable P}
    (h : v.Filled Expr.Normal) (hd : v.depth ≤ room)
    (hcallees : ∀ a, v = .actor a → ∀ x ∈ a.callees, x ∉ Lexer.fusedNames) :
    v.Spelling limits room (v.leaves .printed) := by
  refine ⟨fun hshort => absurd (Nat.le_trans hl hshort) (by decide), ?_⟩
  cases v with
  | expression e => exact ⟨h, hd, rfl⟩
  | artifact a =>
      cases a with
      | named id => exact h.elim
      | literal => exact rfl
  | argMap m => exact ⟨h, rfl⟩
  | literal l => exact rfl
  | actor a =>
      have hprinted := Actor.leaves_printed (hcallees a rfl)
      cases hname : a.isName with
      | false =>
          simp only [Assignable.depth, hname, Bool.false_eq_true, if_false] at hd
          simpa [Assignable.leaves, hname, hprinted] using Actor.spelling_plain h hd
      | true =>
          simp only [Assignable.depth, hname, if_true] at hd
          obtain ⟨room, rfl⟩ := Nat.exists_eq_add_one.2 (Nat.lt_of_lt_of_le (Nat.succ_pos _) hd)
          have hrow := Actor.spelling_plain h (Nat.le_of_succ_le_succ hd)
          simp only [Assignable.leaves, hname, if_true, hprinted]
          refine ⟨.wrapped hrow, fun _ heq => ?_⟩
          have hkind := Actor.kind_of_isName hname heq.symm
          simp at hkind

/-- The printed row of a statement is one that the parser takes for it. -/
theorem Statement.spelling_printed (hl : 2 ≤ limits.lookahead) {st : Statement P}
    (h : st.Filled Expr.Normal) (hd : st.depth ≤ limits.depth)
    (hcallees : ∀ x ∈ st.callees, x ∉ Lexer.fusedNames) :
    st.Spelling limits (st.leaves .printed) := by
  cases st with
  | assign target value =>
      refine ⟨_, Assignable.spelling_printed hl h hd ?_, rfl⟩
      rintro a rfl
      exact hcallees
  | print actor pos =>
      refine ⟨_, Actor.spelling_plain h hd, ?_⟩
      rw [Statement.leaves, Actor.leaves_printed hcallees]
  | execute actor inputs pos =>
      refine ⟨_, Actor.spelling_plain h.1 hd, h.2, ?_⟩
      rw [Statement.leaves, Actor.leaves_printed hcallees]
  | ret => exact rfl

theorem Leaf.concat_flatMap {α : Type} {R : α → List (Leaf P) → Prop} {f : α → List (Leaf P)}
    {as : List α} (h : ∀ a ∈ as, R a (f a)) : Leaf.Concat R as (as.flatMap f) := by
  induction as with
  | nil => exact rfl
  | cons a as ih =>
      obtain ⟨ha, has⟩ := List.forall_mem_cons.1 h
      exact ⟨f a, as.flatMap f, ha, ih has, rfl⟩

theorem Block.spelling_printed (hl : 2 ≤ limits.lookahead) {b : Block P} (closer : TokenKind)
    (h : ∀ st ∈ b.statements, st.Filled Expr.Normal ∧ st.depth ≤ limits.depth)
    (hcallees : ∀ x ∈ b.callees, x ∉ Lexer.fusedNames) :
    b.Spelling limits closer (b.leaves .printed closer) := by
  refine ⟨_, Leaf.concat_flatMap fun st hst => ⟨_, ?_, rfl⟩, rfl⟩
  exact Statement.spelling_printed hl (h st hst).1 (h st hst).2
    (List.forall_mem_flatMap.1 hcallees st hst)

theorem Function.spelling_printed (hl : 2 ≤ limits.lookahead) {f : Function P}
    (h : ∀ st ∈ f.body.statements, st.Filled Expr.Normal ∧ st.depth ≤ limits.depth)
    (hcallees : ∀ x ∈ f.name.name :: f.body.callees, x ∉ Lexer.fusedNames) :
    f.Spelling limits (f.leaves .printed) := by
  obtain ⟨hname, hcalls⟩ := List.forall_mem_cons.1 hcallees
  refine ⟨_, Block.spelling_printed hl .rbrace h hcalls, ?_⟩
  rw [Function.leaves, Script.printed_call hname]
  rfl

/-- The printed row of a program stands for it if it fits and calls no function by a fused name. -/
theorem Program.spelling_printed (hl : 2 ≤ limits.lookahead) {p : Program P}
    (h : p.Filled Expr.Normal) (hd : p.depth ≤ limits.depth)
    (hcallees : ∀ x ∈ p.callees, x ∉ Lexer.fusedNames) :
    p.Spelling limits (p.leaves .printed) := by
  have hall : ∀ st ∈ p.statements, st.Filled Expr.Normal ∧ st.depth ≤ limits.depth :=
    fun st hst => ⟨h st hst, depth_le.1 hd st hst⟩
  obtain ⟨hfs, hbody⟩ := List.forall_mem_append.1 hall
  obtain ⟨hdeclared, hcalled⟩ := List.forall_mem_append.1 hcallees
  refine ⟨_, _, Leaf.concat_flatMap fun f hf => ?_, Block.spelling_printed hl .eof hbody hcalled,
    rfl⟩
  exact Function.spelling_printed hl (List.forall_mem_flatMap.1 hfs f hf)
    (List.forall_mem_flatMap.1 hdeclared f hf)

end Rows

end ActorLang
