import ActorLang.Proofs.Grammar.Derivation

/-!
# Rows that can be completed

A row of token classes is viable for a form when more classes behind it make it derivable. Every
form derives some row, so that a row is viable as soon as its last part is viable for what comes
next, whatever follows in the form. Which rules derive a row at all, and which classes begin one,
is computed from the productions; the tables of the grammar list only such classes.
-/

namespace ActorLang

/-! ## What the productions derive -/

namespace Form

def productive (I : Rule → Bool) : Form → Bool
  | token _ | empty | star _ => true
  | rule r => I r
  | seq f g => f.productive I && g.productive I
  | alt f g => f.productive I || g.productive I

def nullable : Form → Bool
  | token _ => false
  | rule r => r.nullable
  | empty | star _ => true
  | seq f g => f.nullable && g.nullable
  | alt f g => f.nullable || g.nullable

/-- Classes that begin a row of a form, if those of `I r` begin one of the rule `r`. -/
def begins (I : Rule → List TokenKind) : Form → List TokenKind
  | token k => [k]
  | rule r => I r
  | empty => []
  | seq f g => f.begins I ++ if f.nullable then g.begins I else []
  | alt f g => f.begins I ++ g.begins I
  | star f => f.begins I

def inner : Form → Bool
  | token k => k ≠ .eof
  | rule r => r ≠ .program
  | empty => true
  | seq f g | alt f g => f.inner && g.inner
  | star f => f.inner

end Form

namespace Rule

/-- Whether a rule derives a row in which rules are nested less than `n` deep. -/
def productiveAt : Nat → Rule → Bool
  | 0, _ => false
  | n + 1, r => r.production.productive (productiveAt n)

def beginsAt : Nat → Rule → List TokenKind
  | 0, _ => []
  | n + 1, r => r.production.begins (beginsAt n)

/-- Five rounds of the productions reach every rule. -/
theorem productiveAt_five (r : Rule) : productiveAt 5 r = true := by
  cases r <;> decide

theorem mem_beginsAt_five {r : Rule} {k : TokenKind} (h : r.starts k = true) :
    k ∈ beginsAt 5 r := by
  -- Over the listed classes, so that two closed lists are compared for each rule.
  have hall : ∀ k ∈ r.first, k ∈ beginsAt 5 r := by
    cases r <;> decide +kernel
  exact hall k (mem_first.2 h)

theorem inner_production {r : Rule} (h : r ≠ .program) : r.production.inner = true := by
  cases r with
  | program => exact absurd rfl h
  | _ => rfl

end Rule

namespace Form

variable {f g : Form} {fs : List Form} {ks js : List TokenKind} {k : TokenKind}

theorem exists_derives_of_productive {I : Rule → Bool}
    (hI : ∀ r, I r = true → ∃ ks, (rule r).Derives ks) (f : Form) (h : f.productive I = true) :
    ∃ ks, f.Derives ks := by
  induction f with
  | token k => exact ⟨[k], .token k⟩
  | rule r => exact hI r h
  | empty => exact ⟨[], .empty⟩
  | star f => exact ⟨[], .starNil⟩
  | seq f g ihf ihg =>
      obtain ⟨hf, hg⟩ := Bool.and_eq_true_iff.1 h
      obtain ⟨ks, hks⟩ := ihf hf
      obtain ⟨js, hjs⟩ := ihg hg
      exact ⟨ks ++ js, .seq hks hjs⟩
  | alt f g ihf ihg =>
      rcases Bool.or_eq_true_iff.1 h with hf | hg
      · obtain ⟨ks, hks⟩ := ihf hf
        exact ⟨ks, .left hks⟩
      · obtain ⟨ks, hks⟩ := ihg hg
        exact ⟨ks, .right hks⟩

theorem exists_derives_of_productiveAt (n : Nat) (r : Rule) (h : Rule.productiveAt n r = true) :
    ∃ ks, (rule r).Derives ks := by
  induction n generalizing r with
  | zero => cases h
  | succ n ih =>
      obtain ⟨ks, hks⟩ := exists_derives_of_productive ih r.production h
      exact ⟨ks, .rule hks⟩

/-- No form of the grammar is empty. -/
theorem exists_derives (f : Form) : ∃ ks, f.Derives ks := by
  -- Five levels are enough for every rule, so that all rules may be taken as derivable in `f`.
  refine exists_derives_of_productive (I := fun _ => true) (fun r _ => ?_) f ?_
  · exact exists_derives_of_productiveAt 5 r (Rule.productiveAt_five r)
  · induction f with
    | seq f g ihf ihg => simp [productive, ihf, ihg]
    | alt f g ihf ihg => simp [productive, ihf]
    | _ => rfl

theorem derives_of_nullable (f : Form) (h : f.nullable = true) : f.Derives [] := by
  induction f with
  | token k => cases h
  | rule r =>
      cases r with
      | stmtBlock => exact .rule .starNil
      | _ => cases h
  | empty => exact .empty
  | star f => exact .starNil
  | seq f g ihf ihg =>
      obtain ⟨hf, hg⟩ := Bool.and_eq_true_iff.1 h
      exact .seq (ihf hf) (ihg hg)
  | alt f g ihf ihg =>
      rcases Bool.or_eq_true_iff.1 h with hf | hg
      · exact .left (ihf hf)
      · exact .right (ihg hg)

/-- The end of the input belongs to whole programs only. -/
theorem Derives.eof_not_mem (h : f.Derives ks) (hf : f.inner = true) : .eof ∉ ks := by
  induction h with
  | token k =>
      have hk : k ≠ .eof := of_decide_eq_true hf
      exact fun hmem => hk (List.mem_singleton.1 hmem).symm
  | @rule r ks h ih => exact ih (Rule.inner_production (of_decide_eq_true hf))
  | empty | starNil => simp
  | seq hf hg ihf ihg =>
      obtain ⟨hf, hg⟩ := Bool.and_eq_true_iff.1 hf
      simp [ihf hf, ihg hg]
  | left h ih => exact ih (Bool.and_eq_true_iff.1 hf).1
  | right h ih => exact ih (Bool.and_eq_true_iff.1 hf).2
  | starCons h hs ih ihs => simp [ih hf, ihs hf]

/-! ## Viable rows -/

/-- A row begins something that a form derives. -/
def Viable (f : Form) (ks : List TokenKind) : Prop :=
  ∃ js, f.Derives (ks ++ js)

def Within (f g : Form) : Prop :=
  ∀ ks, f.Derives ks → g.Derives ks

theorem Derives.viable (h : f.Derives ks) : f.Viable ks :=
  ⟨[], by rwa [List.append_nil]⟩

theorem within_append (fs gs : List Form) : (seq (row fs) (row gs)).Within (row (fs ++ gs)) := by
  intro ks h
  cases h with
  | @seq _ _ js is hf hg =>
      induction fs generalizing js with
      | nil =>
          cases hf
          exact hg
      | cons f fs ih =>
          cases hf with
          | seq hf hfs =>
              rw [List.append_assoc]
              exact .seq hf (ih hfs)

namespace Viable

theorem within (h : f.Viable ks) (hfg : f.Within g) : g.Viable ks := by
  obtain ⟨js, hjs⟩ := h
  exact ⟨js, hfg _ hjs⟩

theorem of_append (h : f.Viable (ks ++ js)) : f.Viable ks := by
  obtain ⟨is, his⟩ := h
  exact ⟨js ++ is, by rwa [← List.append_assoc]⟩

theorem first (h : f.Viable ks) : (seq f g).Viable ks := by
  obtain ⟨js, hjs⟩ := h
  obtain ⟨is, his⟩ := g.exists_derives
  exact ⟨js ++ is, by rw [← List.append_assoc]; exact .seq hjs his⟩

theorem second (hf : f.Derives ks) (hg : g.Viable js) : (seq f g).Viable (ks ++ js) := by
  obtain ⟨is, his⟩ := hg
  exact ⟨is, by rw [List.append_assoc]; exact .seq hf his⟩

theorem rule {r : Rule} (h : r.production.Viable ks) : (rule r).Viable ks :=
  h.within fun _ => .rule

theorem left (h : f.Viable ks) : (alt f g).Viable ks :=
  h.within fun _ => .left

theorem right (h : g.Viable ks) : (alt f g).Viable ks :=
  h.within fun _ => .right

theorem star (h : f.Viable ks) : (star f).Viable ks :=
  h.first.within fun _ hks => by
    cases hks with
    | seq hf hs => exact .starCons hf hs

theorem mark (k : TokenKind) (fs : List Form) : (row (.token k :: fs)).Viable [k] :=
  first (Derives.token k).viable

end Viable

/-- Something can be derived that begins with each of the classes, since no form is empty. -/
theorem viable_of_mem_begins {I : Rule → List TokenKind}
    (hI : ∀ r, ∀ k ∈ I r, (rule r).Viable [k]) (f : Form) (h : k ∈ f.begins I) : f.Viable [k] := by
  induction f with
  | token j =>
      obtain rfl := List.mem_singleton.1 h
      exact (Derives.token k).viable
  | rule r => exact hI r k h
  | empty => cases h
  | star f ih => exact (ih h).star
  | seq f g ihf ihg =>
      rcases List.mem_append.1 h with hf | hg
      · exact (ihf hf).first
      · -- The class begins the second form, before which the first one is empty.
        by_cases hn : f.nullable = true
        · rw [if_pos hn] at hg
          exact .second (derives_of_nullable f hn) (ihg hg)
        · rw [if_neg hn] at hg
          cases hg
  | alt f g ihf ihg =>
      rcases List.mem_append.1 h with hf | hg
      · exact (ihf hf).left
      · exact (ihg hg).right

theorem viable_of_mem_beginsAt (n : Nat) (r : Rule) (h : k ∈ Rule.beginsAt n r) :
    (rule r).Viable [k] := by
  induction n generalizing r k with
  | zero => cases h
  | succ n ih => exact .rule (viable_of_mem_begins (fun r k hk => ih r hk) r.production h)

/-- Every class that the tables list for a rule begins a row of it. -/
theorem viable_of_starts {r : Rule} (h : r.starts k = true) : (rule r).Viable [k] :=
  viable_of_mem_beginsAt 5 r (Rule.mem_beginsAt_five h)

end Form

end ActorLang
