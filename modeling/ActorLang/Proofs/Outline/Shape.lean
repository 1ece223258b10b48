import ActorLang.Proofs.Outline.Details
import ActorLang.Proofs.Printer.RoundTrip

/-!
# The outline of a program

The labels of a walk determine the tree up to its places. Wherever two walks stand in front of other
labels, equal labels mean equal trees and equal labels behind them, so that the children of a node
can be compared one after the other. Two programs that were read from texts have the same outline if
and only if they have the same shape.
-/

namespace ActorLang

open Leaf Lexer

variable {P Q : Type}

/-! ## Artifacts and argument maps -/

theorem Literal.outlined {l : Literal P} (h : l.leaf.Lexical) : Outlined l.events := by
  refine .around (fun x hx => ⟨fun _ => ?_, fun hk => absurd rfl hk⟩) .nil
  obtain rfl : l.raw = x := by simpa [Node.label, Node.outlineDetail] using hx
  exact h rfl l.raw rfl

theorem Literal.settles (l m : Literal Unit) : Settles l.events m.events (l = m) := by
  obtain ⟨x, _⟩ := l
  obtain ⟨y, _⟩ := m
  refine .around fun hdetail => Settles.nil.imp fun _ => ?_
  cases hdetail
  rfl

theorem Reference.outlined {x : Reference P} (h : x.leaf.Lexical) : Outlined x.events := by
  cases x with
  | name id => exact .nil
  | literal lit => exact Literal.outlined h

theorem Reference.settles {x y : Reference Unit} (h : x.outlineName = y.outlineName) :
    Settles x.events y.events (x = y) := by
  cases x with
  | name id =>
      cases y with
      | name id' =>
          have hid : id = id' := Ident.name_injective (Option.some.inj h)
          exact Settles.nil.imp fun _ => congrArg Reference.name hid
      | literal lit => cases h
  | literal lit =>
      cases y with
      | name id => cases h
      | literal lit' => exact (Literal.settles lit lit').imp (congrArg _)

theorem Artifact.outlined {a : Artifact P} (h : ∀ l ∈ a.leaves, l.Lexical) :
    Outlined a.events := by
  cases a with
  | literal type source pos =>
      simp only [Artifact.leaves, Reference.factoryLeaves, List.forall_mem_cons] at h
      exact .around (Node.legible_some rfl rfl (line_outlineOrigin h.2.1 h.2.2.2.1))
        (Reference.outlined h.2.2.2.1)
  | named id =>
      simp only [Artifact.leaves, List.forall_mem_cons] at h
      exact .around (Node.legible_some rfl rfl (line_of_isWord (Ident.isWord_name h.1))) .nil

theorem Artifact.settles {a b : Artifact Unit} (ha : ∀ l ∈ a.leaves, l.Lexical)
    (hb : ∀ l ∈ b.leaves, l.Lexical) : Settles a.events b.events (a = b) := by
  cases a with
  | literal type source pos =>
      cases b with
      | literal type' source' pos' =>
          simp only [Artifact.leaves, Reference.factoryLeaves, List.forall_mem_cons] at ha hb
          refine .around fun hdetail => ?_
          obtain ⟨rfl, hname⟩ := outlineOrigin_inj ha.2.1 hb.2.1 (Option.some.inj hdetail)
          exact (Reference.settles hname).imp fun h => h ▸ rfl
      | named id => exact .of_kind_ne rfl
  | named id =>
      cases b with
      | literal type source pos => exact .of_kind_ne rfl
      | named id' =>
          refine .around fun hdetail => Settles.nil.imp fun _ => ?_
          exact congrArg _ (Ident.name_injective (Option.some.inj hdetail))

def MapItem.outlineEnding (i : MapItem P) : String :=
  match i.value with
  | some (.artifactType type) => ": " ++ type.name
  | some (.quoted id) => ": " ++ id.quoted
  | _ => ""

theorem MapItem.outlineDetail_eq (i : MapItem P) :
    i.outlineDetail = i.key.quoted ++ i.outlineEnding := by
  obtain ⟨key, value⟩ := i
  match value with
  | none | some (.artifact a) => simp [outlineDetail, outlineEnding]
  | some (.artifactType type) | some (.quoted id) => exact String.append_assoc

theorem MapItem.outlined {i : MapItem P} (h : ∀ l ∈ i.leaves, l.Lexical) : Outlined i.events := by
  obtain ⟨key, value⟩ := i
  obtain ⟨hkey, hvalue⟩ := List.forall_mem_append.1 h
  have hline := line_quoted hkey
  have hlegible : '\n' ∉ (MapItem.mk key value).outlineEnding.toList →
      (Node.mapItem ⟨key, value⟩).label.Legible := by
    intro hending
    refine Node.legible_some rfl rfl ?_
    rw [outlineDetail_eq, String.toList_append, List.mem_append]
    exact not_or.2 ⟨hline, hending⟩
  match value with
  | none => exact .around (hlegible (by simp [outlineEnding])) .nil
  | some (.artifact a) =>
      exact .around (hlegible (by simp [outlineEnding]))
        (Artifact.outlined (List.forall_mem_cons.1 hvalue).2)
  | some (.artifactType type) =>
      have htype : type.leaf.Lexical := hvalue _ (by simp [MapValue.leaves])
      have htext := line_of_isWord (TypeIdent.isWord_name htype)
      exact .around (hlegible (by simp [outlineEnding, htext])) .nil
  | some (.quoted id) =>
      have htext := line_quoted (List.forall_mem_cons.1 hvalue).2
      exact .around (hlegible (by simp [outlineEnding, htext])) .nil

theorem MapItem.settles {i j : MapItem Unit} (hi : ∀ l ∈ i.leaves, l.Lexical)
    (hj : ∀ l ∈ j.leaves, l.Lexical) : Settles i.events j.events (i = j) := by
  obtain ⟨key, value⟩ := i
  obtain ⟨key', value'⟩ := j
  obtain ⟨hkey, hvalue⟩ := List.forall_mem_append.1 hi
  obtain ⟨hkey', hvalue'⟩ := List.forall_mem_append.1 hj
  refine .enter fun hdetail => ?_
  have hline : (MapItem.mk key value).outlineDetail = (MapItem.mk key' value').outlineDetail :=
    Option.some.inj hdetail
  rw [outlineDetail_eq, outlineDetail_eq] at hline
  obtain ⟨rfl, hending⟩ := Ident.quoted_append_inj hkey hkey' hline
  match value, value' with
  | none, none => exact Settles.exit.imp fun _ => rfl
  | none, some (.artifact b) => exact .of_ne rfl rfl (Option.some_ne_none _).symm
  | some (.artifact a), none => exact .of_ne rfl rfl (Option.some_ne_none _)
  | some (.artifact a), some (.artifact b) =>
      have ha : ∀ l ∈ a.leaves, l.Lexical := (List.forall_mem_cons.1 hvalue).2
      have hb : ∀ l ∈ b.leaves, l.Lexical := (List.forall_mem_cons.1 hvalue').2
      refine ((Artifact.settles ha hb).append .exit).imp fun h => ?_
      rw [h.1]
  | some (.artifactType t), some (.artifactType u) =>
      obtain rfl : t = u := TypeIdent.name_injective ((String.append_right_inj _).1 hending)
      exact Settles.exit.imp fun _ => rfl
  | some (.quoted x), some (.quoted y) =>
      obtain rfl : x = y := Ident.quoted_inj ((String.append_right_inj _).1 hending)
      exact Settles.exit.imp fun _ => rfl
  | some (.artifactType t), some (.quoted y) =>
      have ht : t.leaf.Lexical := hvalue _ (by simp [MapValue.leaves])
      exact absurd ((String.append_right_inj _).1 hending) (TypeIdent.name_ne_quoted ht)
  | some (.quoted x), some (.artifactType u) =>
      have hu : u.leaf.Lexical := hvalue' _ (by simp [MapValue.leaves])
      exact absurd ((String.append_right_inj _).1 hending).symm (TypeIdent.name_ne_quoted hu)
  | none, some (.artifactType u) | none, some (.quoted y)
  | some (.artifact a), some (.artifactType u) | some (.artifact a), some (.quoted y)
  | some (.artifactType t), none | some (.quoted x), none
  | some (.artifactType t), some (.artifact b) | some (.quoted x), some (.artifact b) =>
      simp [MapItem.outlineEnding] at hending

theorem ArgMap.lexical_items {m : ArgMap P} (h : ∀ l ∈ m.leaves, l.Lexical) :
    ∀ i ∈ m.items, ∀ l ∈ i.leaves, l.Lexical := by
  obtain ⟨-, h⟩ := List.forall_mem_cons.1 h
  exact (forall_mem_commaRow (lexical_mark _)).1 (List.forall_mem_append.1 h).1

theorem ArgMap.outlined {m : ArgMap P} (h : ∀ l ∈ m.leaves, l.Lexical) : Outlined m.events :=
  .around (Node.legible_none rfl) (.flatMap fun i hi => MapItem.outlined (lexical_items h i hi))

theorem ArgMap.settles {m n : ArgMap Unit} (hm : ∀ l ∈ m.leaves, l.Lexical)
    (hn : ∀ l ∈ n.leaves, l.Lexical) : Settles m.events n.events (m = n) := by
  obtain ⟨items, _⟩ := m
  obtain ⟨items', _⟩ := n
  refine .enter fun _ => (Settles.flatMap (fun i hi j hj => ?_) (fun i _ => .enter_exit)
    (fun j _ => .exit_enter) .exit).imp ?_
  · exact MapItem.settles (lexical_items hm i hi) (lexical_items hn j hj)
  · rintro ⟨rfl, -⟩
    rfl

/-! ## Expressions -/

theorem Expr.outlined {e : Expr P} (h : ∀ l ∈ e.leaves, l.Lexical) : Outlined e.events := by
  induction e with
  | not operand pos ih =>
      exact .around (Node.legible_none rfl) (ih (List.forall_mem_cons.1 h).2)
  | instanceOf subject type pos =>
      simp only [Expr.leaves, List.forall_mem_cons] at h
      refine .around (Node.legible_some rfl rfl ?_) .nil
      simp [line_of_isWord (Ident.isWord_name h.2.2.1),
        line_of_isWord (TypeIdent.isWord_name h.2.2.2.2.1)]
  | elementOf subject verdicts pos =>
      simp only [Expr.leaves, List.forall_mem_cons] at h
      have hverdicts := line_commaList fun x hx => line_of_isWord (isWord_verdicts verdicts x hx)
      refine .around (Node.legible_some rfl rfl ?_) .nil
      simp [line_of_isWord (Ident.isWord_name h.2.2.1), hverdicts]
  | named id =>
      have hid : id.leaf.Lexical := h _ (by simp [Expr.leaves])
      exact .around (Node.legible_some rfl rfl (line_of_isWord (Ident.isWord_name hid))) .nil
  | parens inner pos ih =>
      obtain ⟨-, h⟩ := List.forall_mem_cons.1 h
      exact .around (Node.legible_none rfl) (ih (List.forall_mem_append.1 h).1)
  | binary left op opPos right ihl ihr =>
      obtain ⟨hleft, hright⟩ := List.forall_mem_append.1 h
      have hop : '\n' ∉ op.text.toList := by cases op <;> decide
      exact .around (Node.legible_some rfl rfl hop)
        ((ihl hleft).append (ihr (List.forall_mem_cons.1 hright).2))

theorem Expr.settles {e f : Expr Unit} (he : ∀ l ∈ e.leaves, l.Lexical)
    (hf : ∀ l ∈ f.leaves, l.Lexical) : Settles e.events f.events (e = f) := by
  induction e generalizing f with
  | not operand pos ih =>
      cases f with
      | not operand' pos' =>
          refine .around fun _ => (ih (List.forall_mem_cons.1 he).2
            (List.forall_mem_cons.1 hf).2).imp fun h => ?_
          rw [h]
      | _ => exact .of_kind_ne rfl
  | instanceOf subject type pos =>
      cases f with
      | instanceOf subject' type' pos' =>
          simp only [Expr.leaves, List.forall_mem_cons] at he hf
          refine .around fun hdetail => Settles.nil.imp fun _ => ?_
          obtain ⟨hname, htype⟩ := word_inj (Ident.isWord_name he.2.2.1)
            (Ident.isWord_name hf.2.2.1) (by decide) (Option.some.inj hdetail)
          rw [Ident.name_injective hname, TypeIdent.name_injective htype]
      | _ => exact .of_kind_ne rfl
  | elementOf subject verdicts pos =>
      cases f with
      | elementOf subject' verdicts' pos' =>
          simp only [Expr.leaves, List.forall_mem_cons] at he hf
          refine .around fun hdetail => Settles.nil.imp fun _ => ?_
          obtain ⟨hname, hverdicts⟩ := word_inj (Ident.isWord_name he.2.2.1)
            (Ident.isWord_name hf.2.2.1) (by decide)
            ((String.append_left_inj _).1 (Option.some.inj hdetail))
          have htexts := commaList_inj (isWord_verdicts _) (isWord_verdicts _) hverdicts
          rw [Ident.name_injective hname,
            List.map_injective_iff.2 Verdict.text_injective htexts]
      | _ => exact .of_kind_ne rfl
  | named id =>
      cases f with
      | named id' =>
          refine .around fun hdetail => Settles.nil.imp fun _ => ?_
          rw [Ident.name_injective (Option.some.inj hdetail)]
      | _ => exact .of_kind_ne rfl
  | parens inner pos ih =>
      cases f with
      | parens inner' pos' =>
          simp only [Expr.leaves, List.forall_mem_cons, List.forall_mem_append] at he hf
          refine .around fun _ => (ih he.2.1 hf.2.1).imp fun h => ?_
          rw [h]
      | _ => exact .of_kind_ne rfl
  | binary left op opPos right ihl ihr =>
      cases f with
      | binary left' op' opPos' right' =>
          simp only [Expr.leaves, List.forall_mem_cons, List.forall_mem_append] at he hf
          refine .around fun hdetail => ((ihl he.1 hf.1).append (ihr he.2.2 hf.2.2)).imp ?_
          rintro ⟨rfl, rfl⟩
          rw [BinOp.text_injective (Option.some.inj hdetail)]
      | _ => exact .of_kind_ne rfl

/-! ## Actors -/

theorem Actor.outlined_utility {a : Actor P} {es : List (Event P)} (ha : a.isUtility = true)
    (hlegible : (Node.utility a).label.Legible) (h : Outlined es) :
    Outlined ((Node.actor a).around ((Node.utility a).around es)) := by
  refine .around (Node.legible_none ?_) (.around hlegible h)
  cases a <;> first | rfl | cases ha

theorem Actor.outlined {a : Actor P} (h : ∀ l ∈ a.leaves .plain, l.Lexical) :
    Outlined a.events := by
  induction a with
  | atomic type source pos =>
      simp only [Actor.leaves, Reference.factoryLeaves, List.forall_mem_cons] at h
      exact .around (Node.legible_some rfl rfl (line_outlineOrigin h.2.1 h.2.2.2.1))
        (Reference.outlined h.2.2.2.1)
  | call name args =>
      simp only [Actor.leaves, Script.plain_call, List.forall_mem_append, List.forall_mem_cons] at h
      exact .around (Node.legible_some rfl rfl (line_outlineSignature h.1.1 h.2.1)) .nil
  | joiner type merge output pos =>
      simp only [Actor.leaves, List.forall_mem_append, List.forall_mem_cons] at h
      have hline : '\n' ∉ (type.name ++ " -> " ++ output.quoted).toList := by
        simp [line_of_isWord (TypeIdent.isWord_name h.2.2.1), line_quoted h.2.2.2.2.2.2.1]
      exact outlined_utility rfl (Node.legible_some rfl rfl hline) (ArgMap.outlined h.2.2.2.2.1)
  | copy map pos | rename map pos | identityMap map pos =>
      simp only [Actor.leaves, List.forall_mem_append, List.forall_mem_cons] at h
      exact outlined_utility rfl (Node.legible_none rfl) (ArgMap.outlined h.2.2.1)
  | testSpecToSpec pos | specToTestSpec pos =>
      exact outlined_utility rfl (Node.legible_none rfl) .nil
  | identity target pos ih =>
      simp only [Actor.leaves, List.forall_mem_append, List.forall_mem_cons] at h
      exact outlined_utility rfl (Node.legible_none rfl) (ih h.2.2.1)
  | sequence first second pos ih₁ ih₂ | parallel first second pos ih₁ ih₂ =>
      simp only [Actor.leaves, List.forall_mem_append, List.forall_mem_cons] at h
      exact .around (Node.legible_none rfl) ((ih₁ h.2.2.1).append (ih₂ h.2.2.2.2.1))
  | ifThenElse condition thenActor elseActor pos ih₁ ih₂ =>
      simp only [Actor.leaves, List.forall_mem_append, List.forall_mem_cons] at h
      exact .around (Node.legible_none rfl) (((Expr.outlined h.2.2.1).append
        (ih₁ h.2.2.2.2.1)).append (ih₂ h.2.2.2.2.2.2.1))
  | iterate watched body pos ih =>
      simp only [Actor.leaves, List.forall_mem_append, List.forall_mem_cons] at h
      exact .around (Node.legible_some rfl rfl (line_quoted h.2.2.1)) (ih h.2.2.2.2.1)
  | named id =>
      have hid : id.leaf.Lexical := h _ (by simp [Actor.leaves])
      exact .around (Node.legible_some rfl rfl (line_of_isWord (Ident.isWord_name hid))) .nil
  | parens inner pos ih =>
      simp only [Actor.leaves, List.forall_mem_append, List.forall_mem_cons] at h
      exact .around (Node.legible_none rfl) (ih h.2.1)

theorem Actor.kind_eq_utility (a : Actor P) : a.kind = .utility ↔ a.isUtility = true := by
  cases a <;> simp [kind, isUtility, form]

/-- The walk of an actor begins with the actor, and with the utility if the actor is one. -/
theorem Actor.exists_labels (a : Actor P) : ∃ ls, labels a.events = some (Node.actor a).label ::
    ((if a.isUtility then [some (Node.utility a).label] else []) ++ ls) := by
  cases a <;> exact ⟨_, rfl⟩

/-- The line of an actor, or that of the utility below it, names its form. -/
theorem Actor.settles_of_form {a b : Actor P} {p : Prop} (h : (a.form == b.form) = false) :
    Settles a.events b.events p := by
  intro r s heq
  obtain ⟨ls, hls⟩ := a.exists_labels
  obtain ⟨ms, hms⟩ := b.exists_labels
  rw [hls, hms] at heq
  obtain ⟨hlabel, heq⟩ := List.cons.inj heq
  have hkind : a.kind = b.kind := (Label.mk.inj (Option.some.inj hlabel)).1
  refine absurd ?_ (ne_of_beq_false h)
  by_cases ha : a.isUtility = true
  · have hb : b.isUtility = true := by
      rw [← b.kind_eq_utility, ← hkind, a.kind_eq_utility]
      exact ha
    rw [ha, hb] at heq
    exact (Label.mk.inj (Option.some.inj (List.cons.inj heq).1)).1
  · have hb : ¬ b.isUtility = true := by
      rwa [← b.kind_eq_utility, ← hkind, a.kind_eq_utility]
    simpa [kind, ha, hb] using hkind

theorem Actor.settles_argMap (a : Actor P) (m : ArgMap P) {p : Prop} :
    Settles a.events m.events p := by
  obtain ⟨ls, hls⟩ := a.exists_labels
  refine .of_ne (by rw [hls]; rfl) rfl fun heq => ?_
  have hkind : a.kind = .argumentMap := (Label.mk.inj (Option.some.inj heq)).1
  revert hkind
  cases a <;> simp [kind, isUtility, form]

theorem Actor.settles {a b : Actor Unit} (ha : ∀ l ∈ a.leaves .plain, l.Lexical)
    (hb : ∀ l ∈ b.leaves .plain, l.Lexical) : Settles a.events b.events (a = b) := by
  induction a generalizing b with
  | atomic type source pos =>
      cases b with
      | atomic type' source' pos' =>
          simp only [Actor.leaves, Reference.factoryLeaves, List.forall_mem_cons] at ha hb
          refine .around fun hdetail => ?_
          obtain ⟨rfl, hname⟩ := outlineOrigin_inj ha.2.1 hb.2.1 (Option.some.inj hdetail)
          exact (Reference.settles hname).imp fun h => h ▸ rfl
      | _ => exact settles_of_form rfl
  | call name args =>
      cases b with
      | call name' args' =>
          simp only [Actor.leaves, Script.plain_call, List.forall_mem_append,
            List.forall_mem_cons] at ha hb
          refine .around fun hdetail => Settles.nil.imp fun _ => ?_
          obtain ⟨rfl, rfl⟩ :=
            outlineSignature_inj ha.1.1 hb.1.1 ha.2.1 hb.2.1 (Option.some.inj hdetail)
          rfl
      | _ => exact settles_of_form rfl
  | joiner type merge output pos =>
      cases b with
      | joiner type' merge' output' pos' =>
          simp only [Actor.leaves, List.forall_mem_append, List.forall_mem_cons] at ha hb
          refine .around fun _ => .around fun hdetail => ?_
          obtain ⟨htype, houtput⟩ := word_inj (TypeIdent.isWord_name ha.2.2.1)
            (TypeIdent.isWord_name hb.2.2.1) (by decide) (Option.some.inj hdetail)
          refine (ArgMap.settles ha.2.2.2.2.1 hb.2.2.2.2.1).imp fun hmerge => ?_
          rw [TypeIdent.name_injective htype, hmerge, Ident.quoted_inj houtput]
      | _ => exact settles_of_form rfl
  | copy map pos =>
      cases b with
      | copy map' pos' =>
          simp only [Actor.leaves, List.forall_mem_append, List.forall_mem_cons] at ha hb
          refine .around fun _ => .around fun _ =>
            (ArgMap.settles ha.2.2.1 hb.2.2.1).imp fun h => ?_
          rw [h]
      | _ => exact settles_of_form rfl
  | rename map pos =>
      cases b with
      | rename map' pos' =>
          simp only [Actor.leaves, List.forall_mem_append, List.forall_mem_cons] at ha hb
          refine .around fun _ => .around fun _ =>
            (ArgMap.settles ha.2.2.1 hb.2.2.1).imp fun h => ?_
          rw [h]
      | _ => exact settles_of_form rfl
  | testSpecToSpec pos =>
      cases b with
      | testSpecToSpec pos' =>
          exact .around fun _ => .around fun _ => Settles.nil.imp fun _ => rfl
      | _ => exact settles_of_form rfl
  | specToTestSpec pos =>
      cases b with
      | specToTestSpec pos' =>
          exact .around fun _ => .around fun _ => Settles.nil.imp fun _ => rfl
      | _ => exact settles_of_form rfl
  | identity target pos ih =>
      cases b with
      | identity target' pos' =>
          simp only [Actor.leaves, List.forall_mem_append, List.forall_mem_cons] at ha hb
          refine .around fun _ => .around fun _ => (ih ha.2.2.1 hb.2.2.1).imp fun h => ?_
          rw [h]
      | identityMap map pos' =>
          exact .around fun _ => .around fun _ => target.settles_argMap map
      | _ => exact settles_of_form rfl
  | identityMap map pos =>
      cases b with
      | identityMap map' pos' =>
          simp only [Actor.leaves, List.forall_mem_append, List.forall_mem_cons] at ha hb
          refine .around fun _ => .around fun _ =>
            (ArgMap.settles ha.2.2.1 hb.2.2.1).imp fun h => ?_
          rw [h]
      | identity target pos' =>
          exact .around fun _ => .around fun _ => (target.settles_argMap map).symm
      | _ => exact settles_of_form rfl
  | sequence first second pos ih₁ ih₂ =>
      cases b with
      | sequence first' second' pos' =>
          simp only [Actor.leaves, List.forall_mem_append, List.forall_mem_cons] at ha hb
          refine .around fun _ => ((ih₁ ha.2.2.1 hb.2.2.1).append
            (ih₂ ha.2.2.2.2.1 hb.2.2.2.2.1)).imp fun h => ?_
          rw [h.1, h.2]
      | _ => exact settles_of_form rfl
  | ifThenElse condition thenActor elseActor pos ih₁ ih₂ =>
      cases b with
      | ifThenElse condition' thenActor' elseActor' pos' =>
          simp only [Actor.leaves, List.forall_mem_append, List.forall_mem_cons] at ha hb
          refine .around fun _ => (((Expr.settles ha.2.2.1 hb.2.2.1).append
            (ih₁ ha.2.2.2.2.1 hb.2.2.2.2.1)).append
            (ih₂ ha.2.2.2.2.2.2.1 hb.2.2.2.2.2.2.1)).imp fun h => ?_
          rw [h.1.1, h.1.2, h.2]
      | _ => exact settles_of_form rfl
  | iterate watched body pos ih =>
      cases b with
      | iterate watched' body' pos' =>
          simp only [Actor.leaves, List.forall_mem_append, List.forall_mem_cons] at ha hb
          refine .around fun hdetail => (ih ha.2.2.2.2.1 hb.2.2.2.2.1).imp fun h => ?_
          rw [Ident.quoted_inj (Option.some.inj hdetail), h]
      | _ => exact settles_of_form rfl
  | parallel first second pos ih₁ ih₂ =>
      cases b with
      | parallel first' second' pos' =>
          simp only [Actor.leaves, List.forall_mem_append, List.forall_mem_cons] at ha hb
          refine .around fun _ => ((ih₁ ha.2.2.1 hb.2.2.1).append
            (ih₂ ha.2.2.2.2.1 hb.2.2.2.2.1)).imp fun h => ?_
          rw [h.1, h.2]
      | _ => exact settles_of_form rfl
  | named id =>
      cases b with
      | named id' =>
          refine .around fun hdetail => Settles.nil.imp fun _ => ?_
          rw [Ident.name_injective (Option.some.inj hdetail)]
      | _ => exact settles_of_form rfl
  | parens inner pos ih =>
      cases b with
      | parens inner' pos' =>
          simp only [Actor.leaves, List.forall_mem_append, List.forall_mem_cons] at ha hb
          refine .around fun _ => (ih ha.2.1 hb.2.1).imp fun h => ?_
          rw [h]
      | _ => exact settles_of_form rfl

/-! ## Statements and programs -/

theorem Assignable.lexical {v : Assignable P} (h : ∀ l ∈ v.leaves .plain, l.Lexical) :
    match v with
    | expression e => ∀ l ∈ e.leaves, l.Lexical
    | artifact a => ∀ l ∈ a.leaves, l.Lexical
    | argMap m => ∀ l ∈ m.leaves, l.Lexical
    | actor a => ∀ l ∈ a.leaves .plain, l.Lexical
    | literal l => l.leaf.Lexical := by
  cases v with
  | actor a => simpa [Assignable.leaves] using h
  | literal l => exact h _ (by simp [Assignable.leaves])
  | _ => exact h

theorem Assignable.outlined {v : Assignable P} (h : ∀ l ∈ v.leaves .plain, l.Lexical) :
    Outlined v.events := by
  have h := lexical h
  cases v with
  | expression e => exact Expr.outlined h
  | artifact a => exact Artifact.outlined h
  | argMap m => exact ArgMap.outlined h
  | actor a => exact Actor.outlined h
  | literal l => exact Literal.outlined h

/-- The statement above names the form of the value, as two values of different forms can have equal
lines. -/
theorem Assignable.settles {v w : Assignable Unit} (hv : ∀ l ∈ v.leaves .plain, l.Lexical)
    (hw : ∀ l ∈ w.leaves .plain, l.Lexical) (h : v.outlineForm = w.outlineForm) :
    Settles v.events w.events (v = w) := by
  have hv := lexical hv
  have hw := lexical hw
  cases v with
  | expression e =>
      cases w with
      | expression f => exact (Expr.settles hv hw).imp (congrArg _)
      | _ => simp [outlineForm] at h
  | artifact a =>
      cases w with
      | artifact b => exact (Artifact.settles hv hw).imp (congrArg _)
      | _ => simp [outlineForm] at h
  | argMap m =>
      cases w with
      | argMap n => exact (ArgMap.settles hv hw).imp (congrArg _)
      | _ => simp [outlineForm] at h
  | actor a =>
      cases w with
      | actor b => exact (Actor.settles hv hw).imp (congrArg _)
      | _ => simp [outlineForm] at h
  | literal l =>
      cases w with
      | literal m => exact (Literal.settles l m).imp (congrArg _)
      | _ => simp [outlineForm] at h

theorem Inputs.lexical {i : Inputs P} (h : ∀ l ∈ i.leaves, l.Lexical) :
    match i with
    | named id => id.leaf.Lexical
    | argMap m => ∀ l ∈ m.leaves, l.Lexical := by
  cases i with
  | named id => exact h _ (by simp [Inputs.leaves])
  | argMap m => exact h

theorem Statement.outlined {st : Statement P} (h : ∀ l ∈ st.leaves .plain, l.Lexical) :
    Outlined st.events := by
  cases st with
  | assign target value =>
      simp only [Statement.leaves, List.forall_mem_cons] at h
      have hform : '\n' ∉ value.outlineForm.toList := by
        cases value <;> simp [Assignable.outlineForm]
      refine .around (Node.legible_some rfl rfl ?_) (Assignable.outlined h.2.2)
      simp [line_of_isWord (Ident.isWord_name h.1), hform]
  | print actor pos =>
      simp only [Statement.leaves, List.forall_mem_append, List.forall_mem_cons] at h
      exact .around (Node.legible_none rfl) (Actor.outlined h.2.1)
  | execute actor inputs pos =>
      simp only [Statement.leaves, List.forall_mem_append, List.forall_mem_cons] at h
      have hactor := Actor.outlined h.2.1
      have hinputs := Inputs.lexical h.2.2.2.1
      cases inputs with
      | named id =>
          refine .around (Node.legible_some rfl rfl ?_) (hactor.append .nil)
          simp [line_of_isWord (Ident.isWord_name hinputs)]
      | argMap m =>
          exact .around (Node.legible_none rfl) (hactor.append (ArgMap.outlined hinputs))
  | ret value pos =>
      simp only [Statement.leaves, List.forall_mem_cons] at h
      exact .around (Node.legible_some rfl rfl (line_of_isWord (Ident.isWord_name h.2.1))) .nil

theorem Statement.settles {st tt : Statement Unit} (hs : ∀ l ∈ st.leaves .plain, l.Lexical)
    (ht : ∀ l ∈ tt.leaves .plain, l.Lexical) : Settles st.events tt.events (st = tt) := by
  cases st with
  | assign target value =>
      cases tt with
      | assign target' value' =>
          simp only [Statement.leaves, List.forall_mem_cons] at hs ht
          refine .around fun hdetail => ?_
          obtain ⟨hname, hform⟩ := word_inj (Ident.isWord_name hs.1) (Ident.isWord_name ht.1)
            (by decide) ((String.append_left_inj _).1 (Option.some.inj hdetail))
          refine (Assignable.settles hs.2.2 ht.2.2 hform).imp fun h => ?_
          rw [Ident.name_injective hname, h]
      | _ => exact .of_kind_ne rfl
  | print actor pos =>
      cases tt with
      | print actor' pos' =>
          simp only [Statement.leaves, List.forall_mem_append, List.forall_mem_cons] at hs ht
          refine .around fun _ => (Actor.settles hs.2.1 ht.2.1).imp fun h => ?_
          rw [h]
      | _ => exact .of_kind_ne rfl
  | execute actor inputs pos =>
      cases tt with
      | execute actor' inputs' pos' =>
          simp only [Statement.leaves, List.forall_mem_append, List.forall_mem_cons] at hs ht
          have hactors := Actor.settles hs.2.1 ht.2.1
          have hinputs := Inputs.lexical hs.2.2.2.1
          have hinputs' := Inputs.lexical ht.2.2.2.1
          refine .around fun hdetail => ?_
          cases inputs with
          | named id =>
              cases inputs' with
              | named id' =>
                  have hid := (String.append_right_inj _).1 (Option.some.inj hdetail)
                  refine (hactors.append .nil).imp fun h => ?_
                  rw [h.1, Ident.name_injective hid]
              | argMap m => cases hdetail
          | argMap m =>
              cases inputs' with
              | named id => cases hdetail
              | argMap m' =>
                  refine (hactors.append (ArgMap.settles hinputs hinputs')).imp fun h => ?_
                  rw [h.1, h.2]
      | _ => exact .of_kind_ne rfl
  | ret value pos =>
      cases tt with
      | ret value' pos' =>
          refine .around fun hdetail => Settles.nil.imp fun _ => ?_
          rw [Ident.name_injective (Option.some.inj hdetail)]
      | _ => exact .of_kind_ne rfl

theorem Block.lexical_statements {closer : TokenKind} {b : Block P}
    (h : ∀ l ∈ b.leaves .plain closer, l.Lexical) :
    ∀ st ∈ b.statements, ∀ l ∈ st.leaves .plain, l.Lexical := by
  intro st hst l hl
  refine Leaf.lexical_of_pin h l ?_
  rw [List.mem_append, List.mem_flatMap]
  exact .inl ⟨st, hst, List.mem_append_left _ hl⟩

theorem Block.outlined {closer : TokenKind} {b : Block P}
    (h : ∀ l ∈ b.leaves .plain closer, l.Lexical) : Outlined b.events :=
  .around (Node.legible_none rfl)
    (.flatMap fun st hst => Statement.outlined (lexical_statements h st hst))

theorem Block.settles {closer closer' : TokenKind} {b c : Block Unit}
    (hb : ∀ l ∈ b.leaves .plain closer, l.Lexical) (hc : ∀ l ∈ c.leaves .plain closer', l.Lexical) :
    Settles b.events c.events (b = c) := by
  obtain ⟨statements, _⟩ := b
  obtain ⟨statements', _⟩ := c
  refine .enter fun _ => (Settles.flatMap (fun st hst tt htt => ?_) (fun st _ => .enter_exit)
    (fun tt _ => .exit_enter) .exit).imp ?_
  · exact Statement.settles (lexical_statements hb st hst) (lexical_statements hc tt htt)
  · rintro ⟨rfl, -⟩
    rfl

theorem Function.outlined {f : Function P} (h : ∀ l ∈ f.leaves .plain, l.Lexical) :
    Outlined f.events := by
  simp only [Function.leaves, Script.plain_call, List.forall_mem_append, List.forall_mem_cons] at h
  exact .around (Node.legible_some rfl rfl (line_outlineSignature h.2.1.1 h.2.2.1))
    (Block.outlined h.2.2.2.2.2)

theorem Function.settles {f g : Function Unit} (hf : ∀ l ∈ f.leaves .plain, l.Lexical)
    (hg : ∀ l ∈ g.leaves .plain, l.Lexical) : Settles f.events g.events (f = g) := by
  obtain ⟨name, params, body, _⟩ := f
  obtain ⟨name', params', body', _⟩ := g
  simp only [Function.leaves, Script.plain_call, List.forall_mem_append,
    List.forall_mem_cons] at hf hg
  refine .around fun hdetail => ?_
  obtain ⟨rfl, rfl⟩ :=
    outlineSignature_inj hf.2.1.1 hg.2.1.1 hf.2.2.1 hg.2.2.1 (Option.some.inj hdetail)
  refine (Block.settles hf.2.2.2.2.2 hg.2.2.2.2.2).imp fun h => ?_
  rw [h]

theorem Program.outlined {p : Program P} (h : ∀ l ∈ p.frontier, l.Lexical) :
    Outlined p.events := by
  obtain ⟨hfunctions, hbody⟩ := List.forall_mem_append.1 h
  rw [List.forall_mem_flatMap] at hfunctions
  exact .around (Node.legible_none rfl)
    ((Outlined.flatMap fun f hf => Function.outlined (hfunctions f hf)).append
      (Block.outlined hbody))

/-- Equal lines come from equal programs, read from the top. -/
theorem Program.settles {p q : Program Unit} (hp : ∀ l ∈ p.frontier, l.Lexical)
    (hq : ∀ l ∈ q.frontier, l.Lexical) : Settles p.events q.events (p = q) := by
  obtain ⟨functions, body⟩ := p
  obtain ⟨functions', body'⟩ := q
  obtain ⟨hfunctions, hbody⟩ := List.forall_mem_append.1 hp
  obtain ⟨hfunctions', hbody'⟩ := List.forall_mem_append.1 hq
  rw [List.forall_mem_flatMap] at hfunctions hfunctions'
  have hstart : ∀ (f : Function Unit) (b : Block Unit), Settles f.events b.events False :=
    fun f b => .of_kind_ne rfl
  refine .around fun _ => (Settles.flatMap (fun f hf g hg => ?_) (fun f _ => hstart f body')
    (fun g _ => (hstart g body).symm) (Block.settles hbody hbody')).imp ?_
  · exact Function.settles (hfunctions f hf) (hfunctions' g hg)
  · rintro ⟨rfl, rfl⟩
    rfl

/-! ## Outlines and shapes -/

theorem outlineOrigin_map (f : P → Q) (type : TypeIdent P) (source : Reference P) :
    outlineOrigin (type.map f) (source.map f) = outlineOrigin type source := by
  cases source <;> rfl

theorem outlineSignature_map (f : P → Q) (name : Ident P) (args : List (Ident P)) :
    outlineSignature (name.map f) (args.map (Ident.map f)) = outlineSignature name args := by
  simp only [outlineSignature, List.map_map]
  rfl

theorem labels_around_congr {n : Node P} {m : Node Q} {es : List (Event P)} {fs : List (Event Q)}
    (hlabel : n.label = m.label) (h : labels es = labels fs) :
    labels (n.around es) = labels (m.around fs) := by
  rw [labels_around, labels_around, hlabel, h]

theorem labels_append_congr {es es' : List (Event P)} {fs fs' : List (Event Q)}
    (h : labels es = labels fs) (h' : labels es' = labels fs') :
    labels (es ++ es') = labels (fs ++ fs') := by
  rw [labels_append, labels_append, h, h']

theorem Reference.labels_map (f : P → Q) (x : Reference P) :
    labels (x.map f).events = labels x.events := by
  cases x <;> rfl

theorem Artifact.labels_map (f : P → Q) (a : Artifact P) :
    labels (a.map f).events = labels a.events := by
  cases a with
  | literal type source pos =>
      refine labels_around_congr ?_ (source.labels_map f)
      exact congrArg (fun x => Label.mk .artifactLiteral (some x)) (outlineOrigin_map f type source)
  | named id => rfl

theorem MapItem.labels_map (f : P → Q) (i : MapItem P) :
    labels (i.map f).events = labels i.events := by
  obtain ⟨key, value⟩ := i
  match value with
  | none | some (.artifactType type) | some (.quoted id) => rfl
  | some (.artifact a) => exact labels_around_congr rfl (a.labels_map f)

theorem labels_flatMap_map {α β : Type} {f : α → β} {g : β → List (Event Q)}
    {h : α → List (Event P)} {as : List α} (hf : ∀ a ∈ as, labels (g (f a)) = labels (h a)) :
    labels ((as.map f).flatMap g) = labels (as.flatMap h) := by
  rw [labels_flatMap, labels_flatMap, List.flatMap_map]
  exact List.flatMap_congr hf

theorem ArgMap.labels_map (f : P → Q) (m : ArgMap P) :
    labels (m.map f).events = labels m.events :=
  labels_around_congr rfl (labels_flatMap_map fun i _ => i.labels_map f)

theorem Expr.labels_map (f : P → Q) (e : Expr P) : labels (e.map f).events = labels e.events := by
  induction e with
  | not operand pos ih | parens operand pos ih => exact labels_around_congr rfl ih
  | instanceOf subject type pos | elementOf subject verdicts pos | named id => rfl
  | binary left op opPos right ihl ihr =>
      exact labels_around_congr rfl (labels_append_congr ihl ihr)

theorem Actor.labels_map (f : P → Q) (a : Actor P) :
    labels (a.map f).events = labels a.events := by
  induction a with
  | atomic type source pos =>
      refine labels_around_congr ?_ (source.labels_map f)
      exact congrArg (fun x => Label.mk .atomic (some x)) (outlineOrigin_map f type source)
  | call name args =>
      refine labels_around_congr ?_ rfl
      exact congrArg (fun x => Label.mk .functionCall (some x)) (outlineSignature_map f name args)
  | joiner type map output pos | copy map pos | rename map pos | identityMap map pos =>
      exact labels_around_congr rfl (labels_around_congr rfl (map.labels_map f))
  | identity target pos ih =>
      exact labels_around_congr rfl (labels_around_congr rfl ih)
  | testSpecToSpec pos | specToTestSpec pos | named id => rfl
  | sequence first second pos ih₁ ih₂ | parallel first second pos ih₁ ih₂ =>
      exact labels_around_congr rfl (labels_append_congr ih₁ ih₂)
  | ifThenElse condition thenActor elseActor pos ih₁ ih₂ =>
      exact labels_around_congr rfl
        (labels_append_congr (labels_append_congr (condition.labels_map f) ih₁) ih₂)
  | iterate watched body pos ih | parens body pos ih => exact labels_around_congr rfl ih

theorem Statement.labels_map (f : P → Q) (st : Statement P) :
    labels (st.map f).events = labels st.events := by
  cases st with
  | assign target value =>
      cases value with
      | expression e => exact labels_around_congr rfl (e.labels_map f)
      | artifact a => exact labels_around_congr rfl (a.labels_map f)
      | argMap m => exact labels_around_congr rfl (m.labels_map f)
      | actor a => exact labels_around_congr rfl (a.labels_map f)
      | literal l => rfl
  | print actor pos => exact labels_around_congr rfl (actor.labels_map f)
  | execute actor inputs pos =>
      cases inputs with
      | named id => exact labels_around_congr rfl (labels_append_congr (actor.labels_map f) rfl)
      | argMap m =>
          exact labels_around_congr rfl
            (labels_append_congr (actor.labels_map f) (m.labels_map f))
  | ret value pos => rfl

theorem Block.labels_map (f : P → Q) (b : Block P) :
    labels (b.map f).events = labels b.events :=
  labels_around_congr rfl (labels_flatMap_map fun st _ => st.labels_map f)

theorem Function.labels_map (f : P → Q) (g : Function P) :
    labels (g.map f).events = labels g.events := by
  refine labels_around_congr ?_ (g.body.labels_map f)
  exact congrArg (fun x => Label.mk .functionDeclaration (some x))
    (outlineSignature_map f g.name g.params)

theorem Program.labels_map (f : P → Q) (p : Program P) :
    labels (p.map f).events = labels p.events :=
  labels_around_congr rfl
    (labels_append_congr (labels_flatMap_map fun g _ => g.labels_map f) (p.body.labels_map f))

/-- An outline does not show places. -/
theorem Program.outline_map (f : P → Q) (p : Program P) : (p.map f).outline = p.outline := by
  refine String.toList_injective ?_
  rw [Program.outline, Program.outline, toList_outlineFrom, toList_outlineFrom, p.labels_map f]

/-- The names and literals of a parsed program are lexemes of their classes. -/
theorem Program.lexical_of_parse {limits : Limits} {source : String} {p : Program Position}
    (h : Program.parse limits source = .ok p) : ∀ l ∈ p.shape.frontier, l.Lexical := by
  cases htokens : tokenize source with
  | error e =>
      rw [Program.parse, htokens] at h
      cases h
  | ok tokens =>
      obtain ⟨ls, hspelling, hmatch⟩ := (Program.parse_eq_ok htokens).1 ⟨p, h, rfl⟩
      exact hspelling.lexical hmatch htokens

/-- The outlines of two programs that were read from texts are equal if and only if the programs
have the same shape: an outline leaves out the places of a program and nothing else. -/
theorem Program.outline_eq_iff {limits limits' : Limits} {source source' : String}
    {p q : Program Position} (hp : Program.parse limits source = .ok p)
    (hq : Program.parse limits' source' = .ok q) : p.outline = q.outline ↔ p.shape = q.shape := by
  have houtline : ∀ r : Program Position, r.shape.outline = r.outline := outline_map _
  constructor
  · intro h
    have hp := Program.lexical_of_parse hp
    have hq := Program.lexical_of_parse hq
    rw [← houtline p, ← houtline q] at h
    have hlabels := labels_eq_of_outline (Program.outlined hp) (Program.outlined hq) h
    exact (Program.settles hp hq [] [] (by rw [hlabels])).1
  · intro h
    rw [← houtline p, h, houtline q]

/-- An assigned literal that goes on in a second line, which looks like the line of a literal. -/
def Program.literalSample (target value : Position) : Program Position where
  functions := []
  body := ⟨[.assign ⟨"x", target⟩ (.literal ⟨"\"\\\n  Literal 1\"", value⟩)], target⟩

theorem Program.outline_eq_iff_literalSample :
    Program.parse ⟨64, 256⟩ "x=\"\\\n  Literal 1\";" =
        .ok (Program.literalSample ⟨1, 1, 0⟩ ⟨1, 3, 2⟩) ∧
      Program.parse ⟨64, 256⟩ "\nx = \"\\\n  Literal 1\" ;" =
        .ok (Program.literalSample ⟨2, 1, 1⟩ ⟨2, 5, 5⟩) ∧
      (Program.literalSample ⟨1, 1, 0⟩ ⟨1, 3, 2⟩).outline =
        (Program.literalSample ⟨2, 1, 1⟩ ⟨2, 5, 5⟩).outline ∧
      (Program.literalSample ⟨1, 1, 0⟩ ⟨1, 3, 2⟩).shape =
        (Program.literalSample ⟨2, 1, 1⟩ ⟨2, 5, 5⟩).shape := by
  have hp : Program.parse ⟨64, 256⟩ "x=\"\\\n  Literal 1\";" =
      .ok (Program.literalSample ⟨1, 1, 0⟩ ⟨1, 3, 2⟩) := by
    decide +kernel
  have hq : Program.parse ⟨64, 256⟩ "\nx = \"\\\n  Literal 1\" ;" =
      .ok (Program.literalSample ⟨2, 1, 1⟩ ⟨2, 5, 5⟩) := by
    decide +kernel
  have houtline : (Program.literalSample ⟨1, 1, 0⟩ ⟨1, 3, 2⟩).outline =
      (Program.literalSample ⟨2, 1, 1⟩ ⟨2, 5, 5⟩).outline := by
    decide +kernel
  exact ⟨hp, hq, houtline, (Program.outline_eq_iff hp hq).1 houtline⟩

end ActorLang
