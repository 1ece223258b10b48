import ActorLang.Proofs.Grammar.Complete
import ActorLang.Proofs.Grammar.Viable

/-!
# What a run of a parser can do

A run ends in one of four ways. It passes over tokens that a form of the grammar derives; it refuses
the token behind a row that the listed classes would continue; it meets a fault; or it is nested too
deeply. In the first two cases the result depends on nothing but the tokens passed and the class and
place of the next one, so that it is the same on every other stream that begins like this.

`Outcome` says this of two parsers at once, which read the same rule under two limits: unless the
first one is nested too deeply, both do the same. The statement is kept by sequencing, by choices
that look at the tokens ahead, and by loops.
-/

namespace ActorLang

variable {P α β : Type}

/-- Whether every token of a class can be taken and stands for it, whatever its text. -/
def TokenKind.plain (k : TokenKind) : Bool :=
  k ≠ .eof && k ≠ .binOp && k ≠ .verdict

theorem TokenKind.stands_of_plain {k : TokenKind} (h : k.plain = true) : k ≠ .eof ∧
    ∀ t : Token P, t.kind = k → t.Stands k := by
  simp only [plain, Bool.and_eq_true, decide_eq_true_eq] at h
  obtain ⟨⟨heof, hop⟩, hverdict⟩ := h
  exact ⟨heof, fun t ht => ⟨ht, fun h => absurd h hop, fun h => absurd h hverdict⟩⟩

namespace TokenStream

/-- The stream `s'` is what is left of `s` behind the tokens `us`. -/
structure Takes (s : TokenStream P) (us : List (Token P)) (s' : TokenStream P) : Prop where
  ahead : s.ahead = us ++ s'.ahead
  final : s'.final = s.final
  unclosed : s'.unclosed = us.foldl (fun ks t => openAfter t.kind ks) s.unclosed

structure Like (t s : TokenStream P) : Prop where
  kind : t.current.kind = s.current.kind
  pos : t.current.pos = s.current.pos

theorem Like.refl (s : TokenStream P) : s.Like s :=
  ⟨rfl, rfl⟩

namespace Takes

variable {s s' s'' t u : TokenStream P} {us vs : List (Token P)}

theorem nil (s : TokenStream P) : s.Takes [] s :=
  ⟨rfl, rfl, rfl⟩

/-- What is left behind given tokens is determined by the stream. -/
theorem unique (h : s.Takes us s') (h' : s.Takes us s'') : s' = s'' := by
  have ha : s'.ahead = s''.ahead := List.append_cancel_left (h.ahead.symm.trans h'.ahead)
  have hf : s'.final = s''.final := h.final.trans h'.final.symm
  have hu : s'.unclosed = s''.unclosed := h.unclosed.trans h'.unclosed.symm
  cases s'
  cases s''
  simp only [mk.injEq]
  exact ⟨ha, hf, hu⟩

theorem append (h : s.Takes us s') (h' : s'.Takes vs s'') : s.Takes (us ++ vs) s'' := by
  refine ⟨?_, h'.final.trans h.final, ?_⟩
  · rw [h.ahead, h'.ahead, List.append_assoc]
  · rw [h'.unclosed, h.unclosed, List.foldl_append]

theorem split (h : s.Takes (us ++ vs) s'') : ∃ s', s.Takes us s' ∧ s'.Takes vs s'' := by
  refine ⟨⟨vs ++ s''.ahead, s.final, us.foldl (fun ks t => openAfter t.kind ks) s.unclosed,
    s.final_kind⟩, ⟨?_, rfl, rfl⟩, ⟨rfl, h.final, ?_⟩⟩
  · rw [h.ahead, List.append_assoc]
  · rw [h.unclosed, List.foldl_append]

theorem split_cons {v : Token P} (h : s.Takes (v :: us) s'') :
    ∃ s', s.Takes [v] s' ∧ s'.Takes us s'' :=
  split (show s.Takes ([v] ++ us) s'' from h)

theorem next (h : s.current.kind ≠ .eof) : s.Takes [s.current] s.next.2 := by
  obtain ⟨t, rest, ha, -, -⟩ := gives_next h
  refine ⟨?_, ?_, ?_⟩
  · simp [ahead_next, TokenStream.current, ha]
  · simp [TokenStream.next, ha]
  · simp [TokenStream.next, TokenStream.current, ha]

theorem current_of_cons {v : Token P} (h : s.Takes (v :: us) s') : s.current = v := by
  simp [TokenStream.current, h.ahead]

/-- Looking ahead sees the same classes in two streams up to the first token behind the common ones.
-/
theorem kindAt_eq (h : s.Takes us s') (h' : t.Takes us u) (hu : u.Like s') {j : Nat}
    (hj : j ≤ us.length) : t.kindAt j = s.kindAt j := by
  induction us generalizing s t j with
  | nil =>
      obtain rfl := h.unique (nil s)
      obtain rfl := h'.unique (nil t)
      obtain rfl : j = 0 := Nat.le_zero.1 hj
      exact hu.kind
  | cons v us ih =>
      cases j with
      | zero =>
          rw [kindAt_zero, kindAt_zero, h.current_of_cons, h'.current_of_cons]
      | succ j =>
          obtain ⟨s₁, hs₁, hs⟩ := h.split_cons
          obtain ⟨t₁, ht₁, ht⟩ := h'.split_cons
          have hs₁a : s.kindAt (j + 1) = s₁.kindAt j := by
            simp [TokenStream.kindAt, hs₁.ahead, hs₁.final]
          have ht₁a : t.kindAt (j + 1) = t₁.kindAt j := by
            simp [TokenStream.kindAt, ht₁.ahead, ht₁.final]
          rw [hs₁a, ht₁a]
          exact ih hs ht (Nat.le_of_succ_le_succ hj)

theorem like (h : s.Takes us s') (h' : t.Takes us u) (hu : u.Like s') : t.Like s := by
  cases us with
  | nil =>
      obtain rfl := h.unique (nil s)
      obtain rfl := h'.unique (nil t)
      exact hu
  | cons v us =>
      have hcurrent : t.current = s.current := by rw [h.current_of_cons, h'.current_of_cons]
      exact ⟨by rw [hcurrent], by rw [hcurrent]⟩

theorem getElem?_ahead (h : s.Takes us s') (i : Nat) :
    (s.ahead ++ [s.final])[us.length + i]? = (s'.ahead ++ [s'.final])[i]? := by
  rw [h.ahead, h.final, List.append_assoc, List.getElem?_append_right (Nat.le_add_right ..),
    Nat.add_sub_cancel_left]

end Takes

end TokenStream

namespace Parser

open TokenStream Form

theorem bind_of_eq_error {p : Parser P α} {f : α → Parser P β} {s : TokenStream P}
    {e : ParseError P} (h : p s = .error e) : (p >>= f) s = .error e := by
  simp [bind, StateT.bind, Except.bind, h]

theorem bind_congr_of_ok {p : Parser P α} {f g : α → Parser P β} {s : TokenStream P}
    (h : ∀ a s', p s = .ok (a, s') → f a s' = g a s') : (p >>= f) s = (p >>= g) s := by
  cases hp : p s with
  | error e => rw [bind_of_eq_error hp, bind_of_eq_error hp]
  | ok r => rw [bind_of_eq_ok hp, bind_of_eq_ok hp, h _ _ hp]

theorem unexpected_bind (ks : List TokenKind) (f : α → Parser P β) (s : TokenStream P) :
    (unexpected ks >>= f) s = unexpected ks s := rfl

/-- A run gets behind the tokens `us`, at least `w` of them, all of them known. -/
structure Reach (w : Nat) (s : TokenStream P) (us : List (Token P)) (s' : TokenStream P) :
    Prop where
  takes : s.Takes us s'
  known : ∀ t ∈ us, t.Stands t.kind
  far : w ≤ us.length

def Settled (p q : Parser P α) (us : List (Token P)) (s' : TokenStream P)
    (result : TokenStream P → Except (ParseError P) (α × TokenStream P)) : Prop :=
  ∀ t u, t.Takes us u → u.Like s' → p t = result u ∧ q t = result u

/-- The tokens `us` stand for a form. More classes could continue it, but none of them follows. -/
structure Passage (f : Form) (more : List TokenKind) (w : Nat) (p q : Parser P α)
    (s : TokenStream P) (a : α) (us : List (Token P)) (s' : TokenStream P) : Prop
    extends Reach w s us s' where
  derives : f.Derives (us.map Token.kind)
  ends : s'.current.kind ∉ more
  viable : ∀ k ∈ more, f.Viable (us.map Token.kind ++ [k])
  settled : Settled p q us s' fun u => .ok (a, u)

/-- One of the classes `ks` would have to follow the tokens `us`, and none of them does. -/
structure Refusal (f : Form) (w : Nat) (p q : Parser P α) (s : TokenStream P)
    (us : List (Token P)) (s' : TokenStream P) (ks : List TokenKind) : Prop
    extends Reach w s us s' where
  nonempty : ks ≠ []
  misses : s'.current.kind ∉ ks
  viable : ∀ k ∈ ks, f.Viable (us.map Token.kind ++ [k])
  settled : Settled p q us s' fun u => .error (u.mismatch ks)

/-- What two parsers of a form do under two limits. Where they get anywhere they get behind `w`
tokens at least, and only behind `n` of them the first one can be nested too deeply. -/
inductive Outcome (limits limits' : Limits) (f : Form) (more : List TokenKind) (w n : Nat)
    (p q : Parser P α) (s : TokenStream P) : Prop
  | passes {a : α} {us : List (Token P)} {s' : TokenStream P} (h : Passage f more w p q s a us s')
  | refuses {us : List (Token P)} {s' : TokenStream P} {ks : List TokenKind}
      (h : Refusal f w p q s us s' ks)
  | faults {message : String} {pos : P} (hp : p s = .error ⟨.internal message, pos⟩)
      (hq : q s = .error ⟨.internal message, pos⟩)
      (cause : limits.lookahead ≤ 1 ∨ ∃ t ∈ s.ahead, ¬ t.Stands t.kind)
  | tooDeep {i : Nat} {t : Token P} (hi : n ≤ i) (ht : (s.ahead ++ [s.final])[i]? = some t)
      (hp : p s = .error ⟨.nesting limits.depth, t.pos⟩)
      (hq : limits.depth = limits'.depth → q s = .error ⟨.nesting limits.depth, t.pos⟩)

theorem Passage.eq_ok {f : Form} {more : List TokenKind} {w : Nat} {p q : Parser P α}
    {s s' : TokenStream P} {a : α} {us : List (Token P)} (h : Passage f more w p q s a us s') :
    p s = .ok (a, s') ∧ q s = .ok (a, s') :=
  h.settled s s' h.takes (.refl s')

theorem Refusal.eq_error {f : Form} {w : Nat} {p q : Parser P α} {s s' : TokenStream P}
    {us : List (Token P)} {ks : List TokenKind} (h : Refusal f w p q s us s' ks) :
    p s = .error (s'.mismatch ks) ∧ q s = .error (s'.mismatch ks) :=
  h.settled s s' h.takes (.refl s')

theorem Reach.append {w v : Nat} {s s' s'' : TokenStream P} {us vs : List (Token P)}
    (h : Reach w s us s') (h' : Reach v s' vs s'') : Reach (w + v) s (us ++ vs) s'' := by
  refine ⟨h.takes.append h'.takes, List.forall_mem_append.2 ⟨h.known, h'.known⟩, ?_⟩
  rw [List.length_append]
  exact Nat.add_le_add h.far h'.far

theorem Settled.bind {p q : Parser P α} {k l : α → Parser P β} {us vs : List (Token P)}
    {s' s'' : TokenStream P} {a : α} {result : TokenStream P → Except (ParseError P) (β × _)}
    (hp : Settled p q us s' fun u => .ok (a, u)) (htakes : s'.Takes vs s'')
    (hk : Settled (k a) (l a) vs s'' result) :
    Settled (p >>= k) (q >>= l) (us ++ vs) s'' result := by
  intro t u ht hu
  obtain ⟨t₁, ht₁, htu⟩ := ht.split
  obtain ⟨hpt, hqt⟩ := hp t t₁ ht₁ (htakes.like htu hu)
  rw [bind_of_eq_ok hpt, bind_of_eq_ok hqt]
  exact hk t₁ u htu hu

/-- Behind a form that was read, the outcome of the rest is that of the sequence. -/
theorem Passage.bind {limits limits' : Limits} {f g : Form} {others more : List TokenKind}
    {w v n : Nat} {p q : Parser P α} {k l : α → Parser P β} {s s' : TokenStream P} {a : α}
    {us : List (Token P)} (h : Passage f others w p q s a us s')
    (hk : Outcome limits limits' g more v n (k a) (l a) s') :
    Outcome limits limits' (seq f g) more (w + v) (us.length + n) (p >>= k) (q >>= l) s := by
  obtain ⟨hps, hqs⟩ := h.eq_ok
  cases hk with
  | @passes b vs s'' h' =>
      refine .passes ⟨h.toReach.append h'.toReach, ?_, h'.ends, fun k hk => ?_,
        h.settled.bind h'.takes h'.settled⟩
      · rw [List.map_append]
        exact .seq h.derives h'.derives
      · rw [List.map_append, List.append_assoc]
        exact .second h.derives (h'.viable k hk)
  | @refuses vs s'' ks h' =>
      refine .refuses ⟨h.toReach.append h'.toReach, h'.nonempty, h'.misses,
        fun k hk => ?_, h.settled.bind h'.takes h'.settled⟩
      rw [List.map_append, List.append_assoc]
      exact .second h.derives (h'.viable k hk)
  | faults hp hq cause =>
      refine .faults ((bind_of_eq_ok hps).trans hp) ((bind_of_eq_ok hqs).trans hq) ?_
      refine cause.imp_right fun ⟨t, ht, hstands⟩ => ⟨t, ?_, hstands⟩
      rw [h.takes.ahead]
      exact List.mem_append_right us ht
  | tooDeep hi ht hp hq =>
      -- Tokens are counted from `s'` there, from `s` here.
      exact .tooDeep (Nat.add_le_add_left hi _) ((h.takes.getElem?_ahead _).trans ht)
        ((bind_of_eq_ok hps).trans hp) fun hd => (bind_of_eq_ok hqs).trans (hq hd)

/-- A passage is refused where it neither goes on nor is followed by the class `k`. -/
theorem Passage.refuses {f : Form} {fs : List Form} {more ks : List TokenKind} {k : TokenKind}
    {w : Nat} {p q : Parser P α} {F F' : α → Parser P β} {s s' : TokenStream P} {a : α}
    {us : List (Token P)} (h : Passage f more w p q s a us s') (hs : s'.current.kind ≠ k)
    (hks : ∀ j ∈ ks, j ∈ more)
    (hF : ∀ u : TokenStream P, u.current.kind ≠ k →
      F a u = .error (u.mismatch (ks ++ [k])) ∧ F' a u = .error (u.mismatch (ks ++ [k]))) :
    Refusal (row (f :: token k :: fs)) w (p >>= F) (q >>= F') s us s' (ks ++ [k]) := by
  refine ⟨h.toReach, by simp, ?_, fun j hj => ?_, fun t u ht hu => ?_⟩
  · rw [List.mem_append, List.mem_singleton]
    exact not_or.2 ⟨fun hmem => h.ends (hks _ hmem), hs⟩
  · rcases List.mem_append.1 hj with hj | hj
    · exact (h.viable j (hks j hj)).first
    · obtain rfl := List.mem_singleton.1 hj
      exact .second h.derives (.mark j fs)
  · obtain ⟨hpt, hqt⟩ := h.settled t u ht hu
    rw [bind_of_eq_ok hpt, bind_of_eq_ok hqt]
    exact hF u (by rwa [hu.kind])

/-- A refusal in the first part is one of the sequence. -/
theorem Refusal.bind {f g : Form} {w : Nat} {p q : Parser P α} {k l : α → Parser P β}
    {s s' : TokenStream P} {us : List (Token P)} {ks : List TokenKind}
    (h : Refusal f w p q s us s' ks) (hfg : ∀ js, f.Viable js → g.Viable js) :
    Refusal g w (p >>= k) (q >>= l) s us s' ks := by
  refine ⟨h.toReach, h.nonempty, h.misses, fun k hk => hfg _ (h.viable k hk), fun t u ht hu => ?_⟩
  obtain ⟨hpt, hqt⟩ := h.settled t u ht hu
  exact ⟨bind_of_eq_error hpt, bind_of_eq_error hqt⟩

namespace Outcome

variable {limits limits' : Limits} {f g : Form} {fs : List Form} {more others : List TokenKind}
  {k : TokenKind} {v w m n : Nat} {p q p' q' : Parser P α} {s : TokenStream P}

/-! ## Weaker statements -/

theorem within (h : Outcome limits limits' f more w n p q s) (hfg : f.Within g) :
    Outcome limits limits' g more w n p q s := by
  cases h with
  | passes h =>
      exact .passes { h with
        derives := hfg _ h.derives
        viable := fun k hk => (h.viable k hk).within hfg }
  | refuses h => exact .refuses { h with viable := fun k hk => (h.viable k hk).within hfg }
  | faults hp hq cause => exact .faults hp hq cause
  | tooDeep hi ht hp hq => exact .tooDeep hi ht hp hq

theorem mono (h : Outcome limits limits' f more w n p q s) (hw : v ≤ w) (hn : m ≤ n) :
    Outcome limits limits' f more v m p q s := by
  cases h with
  | passes h => exact .passes { h with far := Nat.le_trans hw h.far }
  | refuses h => exact .refuses { h with far := Nat.le_trans hw h.far }
  | faults hp hq cause => exact .faults hp hq cause
  | tooDeep hi ht hp hq => exact .tooDeep (Nat.le_trans hn hi) ht hp hq

theorem forget (h : Outcome limits limits' f more w n p q s) :
    Outcome limits limits' f [] w n p q s := by
  cases h with
  | passes h => exact .passes { h with
      ends := List.not_mem_nil
      viable := fun _ hk => absurd hk List.not_mem_nil }
  | refuses h => exact .refuses h
  | faults hp hq cause => exact .faults hp hq cause
  | tooDeep hi ht hp hq => exact .tooDeep hi ht hp hq

/-- A choice by the tokens up to the `w`-th one, behind which every run gets. -/
theorem congr (h : Outcome limits limits' f more w n p' q' s)
    (heq : ∀ t : TokenStream P, t.Like s → (∀ j ≤ w, t.kindAt j = s.kindAt j) →
      p t = p' t ∧ q t = q' t) : Outcome limits limits' f more w n p q s := by
  -- A stream on which the result is settled agrees with `s` on every token that the choice reads.
  have hsettled : ∀ {us s' result}, Reach w s us s' → Settled p' q' us s' result →
      Settled p q us s' result := by
    intro us s' result hr hs t u ht hu
    obtain ⟨hp, hq⟩ := heq t (hr.takes.like ht hu) fun j hj =>
      hr.takes.kindAt_eq ht hu (Nat.le_trans hj hr.far)
    rw [hp, hq]
    exact hs t u ht hu
  obtain ⟨hps, hqs⟩ := heq s (.refl s) fun _ _ => rfl
  cases h with
  | passes h => exact .passes { h with settled := hsettled h.toReach h.settled }
  | refuses h => exact .refuses { h with settled := hsettled h.toReach h.settled }
  | faults hp hq cause => exact .faults (hps.trans hp) (hqs.trans hq) cause
  | tooDeep hi ht hp hq => exact .tooDeep hi ht (hps.trans hp) fun h => hqs.trans (hq h)

theorem last (h : Outcome limits limits' f more w n p q s) :
    Outcome limits limits' (row [f]) more w n p q s :=
  h.within fun _ => .last

theorem alone (h : Outcome limits limits' (row [f]) more w n p q s) :
    Outcome limits limits' f more w n p q s := by
  refine h.within fun ks hks => ?_
  cases hks with
  | seq hf he =>
      cases he
      rwa [List.append_nil]

theorem produced {r : Rule} (h : Outcome limits limits' r.production more w n p q s) :
    Outcome limits limits' (rule r) more w n p q s :=
  h.within fun _ => .rule

theorem nth {h : Form} {gs : List Form} (i : Nat) (hg : (h :: gs)[i]? = some g)
    (hp : Outcome limits limits' g more w n p q s) :
    Outcome limits limits' (choice h gs) more w n p q s :=
  hp.within fun _ => .nth i hg

/-! ## Sequences -/

theorem pure (a : α) : Outcome limits limits' empty [] 0 n (Pure.pure a) (Pure.pure a) s := by
  refine .passes (a := a)
    ⟨⟨.nil s, by simp, Nat.zero_le _⟩, .empty, by simp, by simp, fun t u ht _ => ?_⟩
  obtain rfl := ht.unique (.nil t)
  exact ⟨rfl, rfl⟩

/-- Only a passage is followed by anything. -/
theorem andThen {k l : α → Parser P β} (hp : Outcome limits limits' f others w n p q s)
    (hfg : ∀ js, f.Viable js → g.Viable js)
    (hpass : ∀ a us s', Passage f others w p q s a us s' →
      Outcome limits limits' g more w n (p >>= k) (q >>= l) s) :
    Outcome limits limits' g more w n (p >>= k) (q >>= l) s := by
  cases hp with
  | passes h => exact hpass _ _ _ h
  | refuses h => exact .refuses (h.bind hfg)
  | faults hp hq cause => exact .faults (bind_of_eq_error hp) (bind_of_eq_error hq) cause
  | tooDeep hi ht hp hq =>
      exact .tooDeep hi ht (bind_of_eq_error hp) fun hd => bind_of_eq_error (hq hd)

theorem bind {k l : α → Parser P β} (hp : Outcome limits limits' f others w n p q s)
    (hk : ∀ a s₁, p s = .ok (a, s₁) → Outcome limits limits' g more 0 n (k a) (l a) s₁) :
    Outcome limits limits' (seq f g) more w n (p >>= k) (q >>= l) s := by
  refine hp.andThen (fun _ => .first) fun a us s' h => ?_
  exact (h.bind (hk a s' h.eq_ok.1)).mono (Nat.le_add_right ..) (Nat.le_add_left ..)

theorem map (h : Outcome limits limits' f more w n p q s) (g : α → β) :
    Outcome limits limits' f more w n (p >>= fun a => Pure.pure (g a))
      (q >>= fun a => Pure.pure (g a)) s := by
  refine h.andThen (fun _ => id) fun a us s' h => .passes (a := g a)
    ⟨h.toReach, h.derives, h.ends, h.viable, fun t u ht hu => ?_⟩
  obtain ⟨hpt, hqt⟩ := h.settled t u ht hu
  exact ⟨bind_of_eq_ok hpt, bind_of_eq_ok hqt⟩

/-! ## Choices by the next token -/

theorem peek {F F' : Token P → Parser P α}
    (h : Outcome limits limits' f more w n (F s.current) (F' s.current) s)
    (hF : ∀ t : Token P, t.kind = s.current.kind → t.pos = s.current.pos →
      F t = F s.current ∧ F' t = F' s.current) :
    Outcome limits limits' f more w n (Parser.peek >>= F) (Parser.peek >>= F') s := by
  refine h.congr fun t ht _ => ?_
  rw [peek_bind, peek_bind]
  obtain ⟨hFt, hFt'⟩ := hF t.current ht.kind ht.pos
  rw [hFt, hFt']
  exact ⟨rfl, rfl⟩

theorem ifNext (hyes : s.current.kind = k → Outcome limits limits' f more w n p q s)
    (hno : s.current.kind ≠ k → Outcome limits limits' f more w n p' q' s) :
    Outcome limits limits' f more w n (nextIs k >>= fun b => if b = true then p else p')
      (nextIs k >>= fun b => if b = true then q else q') s := by
  by_cases h : s.current.kind = k
  · refine (hyes h).congr fun t ht _ => ?_
    simp [nextIs_bind, ht.kind, h]
  · refine (hno h).congr fun t ht _ => ?_
    simp [nextIs_bind, ht.kind, h]

theorem ite {c : Prop} [Decidable c] (hyes : c → Outcome limits limits' f more w n p q s)
    (hno : ¬ c → Outcome limits limits' f more w n p' q' s) :
    Outcome limits limits' f more w n (if c then p else p') (if c then q else q') s := by
  by_cases h : c
  · rw [if_pos h, if_pos h]
    exact hyes h
  · rw [if_neg h, if_neg h]
    exact hno h

theorem unexpected {ks : List TokenKind} (hne : ks ≠ []) (hs : s.current.kind ∉ ks)
    (hks : ∀ k ∈ ks, f.Viable [k]) :
    Outcome limits limits' f more 0 n (Parser.unexpected ks : Parser P α)
      (Parser.unexpected ks) s := by
  refine .refuses ⟨⟨.nil s, by simp, Nat.zero_le _⟩, hne, hs, hks, fun t u ht _ => ?_⟩
  obtain rfl := ht.unique (.nil t)
  exact ⟨rfl, rfl⟩

theorem tooDeepHere {q : Parser P α}
    (hq : limits.depth = limits'.depth → q s = Parser.tooDeep limits.depth s) :
    Outcome limits limits' f more w 0 (Parser.tooDeep limits.depth) q s := by
  refine .tooDeep (i := 0) (t := s.current) (Nat.le_refl 0) ?_ rfl hq
  rcases s with ⟨_ | _, _, _, _⟩ <;> rfl

/-! ## Single tokens -/

theorem passage_take (hs : s.current.kind ≠ .eof) (hknown : s.current.Stands s.current.kind) :
    Passage (token s.current.kind) [] 1 take take s s.current [s.current] s.next.2 := by
  refine ⟨⟨.next hs, by simpa using hknown, Nat.le_refl 1⟩, .token _, by simp, by simp, ?_⟩
  intro t u ht _
  have hcurrent : t.current = s.current := ht.current_of_cons
  have hu : t.next.2 = u := (Takes.next (hcurrent ▸ hs)).unique (hcurrent ▸ ht)
  have hnext : t.next = (s.current, u) := Prod.ext (t.fst_next.trans hcurrent) hu
  exact ⟨congrArg Except.ok hnext, congrArg Except.ok hnext⟩

theorem takeKnown {F F' : Token P → Parser P α} (hs : s.current.kind = k) (heof : k ≠ .eof)
    (hknown : s.current.Stands k →
      Outcome limits limits' (row fs) more w n (F s.current) (F' s.current) s.next.2)
    (hunknown : ¬ s.current.Stands k → ∃ message,
      F s.current = fail (.internal message) ∧ F' s.current = fail (.internal message)) :
    Outcome limits limits' (row (token k :: fs)) more (w + 1) (n + 1) (Parser.take >>= F)
      (Parser.take >>= F') s := by
  subst hs
  by_cases h : s.current.Stands s.current.kind
  · exact ((passage_take heof h).bind (hknown h)).mono (Nat.le_of_eq (Nat.add_comm w 1))
      (Nat.le_of_eq (Nat.add_comm n 1))
  · -- The token is taken before its text is looked up, so the fault is placed behind it.
    obtain ⟨message, hF, hF'⟩ := hunknown h
    have htake : Parser.take s = .ok (s.current, s.next.2) :=
      congrArg Except.ok (Prod.ext s.fst_next rfl)
    have hfail : ∀ {G : Token P → Parser P α}, G s.current = fail (.internal message) →
        (Parser.take >>= G) s = .error ⟨.internal message, s.next.2.current.pos⟩ := by
      intro G hG
      rw [bind_of_eq_ok htake, hG]
      rfl
    refine .faults (hfail hF) (hfail hF') (.inr ⟨s.current, ?_, h⟩)
    rw [(Takes.next heof).ahead]
    exact List.mem_cons_self

theorem take {F F' : Token P → Parser P α} (hs : s.current.kind = k) (hk : k.plain = true)
    (h : Outcome limits limits' (row fs) more w n (F s.current) (F' s.current) s.next.2) :
    Outcome limits limits' (row (token k :: fs)) more (w + 1) (n + 1) (Parser.take >>= F)
      (Parser.take >>= F') s := by
  obtain ⟨heof, hknown⟩ := TokenKind.stands_of_plain hk
  exact takeKnown hs heof (fun _ => h) fun hno => absurd (hknown s.current hs) hno

theorem expectHere {F F' : Token P → Parser P α} (hs : s.current.kind = k)
    (h : Outcome limits limits' f more w n (Parser.take >>= F) (Parser.take >>= F') s) :
    Outcome limits limits' f more w n (expectOr others k >>= F) (expectOr others k >>= F') s := by
  refine h.congr fun t ht _ => ?_
  have htk : t.current.kind = k := ht.kind.trans hs
  simp [Stepwise.expectOr, htk]

theorem expectNot {F F' : Token P → Parser P α} (hs : s.current.kind ≠ k) :
    Outcome limits limits' (row (token k :: fs)) more 0 n (Parser.expect k >>= F)
      (Parser.expect k >>= F') s := by
  have h : Outcome limits limits' (row (token k :: fs)) more 0 n
      (Parser.unexpected [k] : Parser P α) (Parser.unexpected [k]) s :=
    unexpected (by simp) (by simpa using hs) (by simpa using Viable.mark k fs)
  refine h.congr fun t ht _ => ?_
  have htk : t.current.kind ≠ k := by rwa [ht.kind]
  simp [Stepwise.expect, Stepwise.expectOr, bind_assoc, htk, unexpected_bind]

theorem expect {F F' : Token P → Parser P α} (hk : k.plain = true)
    (h : ∀ (t : Token P) (s : TokenStream P),
      Outcome limits limits' (row fs) more 0 n (F t) (F' t) s) :
    Outcome limits limits' (row (token k :: fs)) more 0 n (Parser.expect k >>= F)
      (Parser.expect k >>= F') s := by
  by_cases hs : s.current.kind = k
  · exact (expectHere hs (take hs hk (h _ _))).mono (Nat.zero_le _) (Nat.le_succ _)
  · exact expectNot hs

/-- A construct, which could go on with one of `others`, and the token that closes it. -/
theorem close {k : TokenKind} {others : α → List TokenKind} {F F' : α → Parser P β}
    (hp : Outcome limits limits' f more w n p q s) (hk : k.plain = true)
    (hothers : ∀ a s₁, p s = .ok (a, s₁) → ∀ j ∈ others a, j ∈ more)
    (h : ∀ a (s : TokenStream P), Outcome limits limits' (row fs) [] 0 n (F a) (F' a) s) :
    Outcome limits limits' (row (f :: token k :: fs)) [] w n
      (p >>= fun a => expectOr (others a) k >>= fun _ => F a)
      (q >>= fun a => expectOr (others a) k >>= fun _ => F' a) s := by
  refine hp.andThen (fun _ => .first) fun a us s' hpass => ?_
  by_cases hs' : s'.current.kind = k
  · refine (hpass.bind (expectHere hs' (take hs' hk (h a _)))).mono ?_ ?_
    · exact Nat.le_add_right ..
    · exact Nat.le_add_left_of_le (Nat.le_succ n)
  · refine .refuses (hpass.refuses hs' (hothers a s' hpass.eq_ok.1) fun u hu => ?_)
    simp [Stepwise.expectOr, bind_assoc, hu, unexpected_bind, Parser.unexpected]

end Outcome

/-! ## Loops -/

section Rounds

variable {go : TokenKind → Bool} {item : Parser P α}

theorem rounds_succ (n : Nat) (s : TokenStream P) :
    rounds go item (n + 1) s = if go s.current.kind = true then
      (item >>= fun a => rounds go item n >>= fun as => pure (a :: as)) s else .ok ([], s) := by
  simp only [rounds, peek_bind]
  split <;> rfl

variable (heof : go .eof = false)
  (hitem : ∀ s a s', go s.current.kind = true → item s = .ok (a, s') →
    s'.ahead.length < s.ahead.length)

include heof hitem

theorem rounds_eq_rounds {n m : Nat} {s : TokenStream P} (hn : s.ahead.length ≤ n)
    (hm : s.ahead.length ≤ m) : rounds go item n s = rounds go item m s := by
  have hstop : ∀ {s : TokenStream P}, s.ahead.length ≤ 0 → go s.current.kind ≠ true := by
    intro s hs
    have ha : s.ahead = [] := List.length_eq_zero_iff.1 (Nat.le_zero.1 hs)
    simpa [TokenStream.current, ha, s.final_kind] using heof
  induction n generalizing m s with
  | zero =>
      cases m with
      | zero => rfl
      | succ m =>
          rw [rounds_succ, if_neg (hstop hn)]
          rfl
  | succ n ih =>
      cases m with
      | zero =>
          rw [rounds_succ, if_neg (hstop hm)]
          rfl
      | succ m =>
          rw [rounds_succ, rounds_succ]
          by_cases hgo : go s.current.kind = true
          · rw [if_pos hgo, if_pos hgo]
            refine bind_congr_of_ok fun a s' h => ?_
            have hlt := hitem s a s' hgo h
            have hrest : rounds go item n s' = rounds go item m s' := ih (by omega) (by omega)
            simp only [bind, StateT.bind, hrest]
          · rw [if_neg hgo, if_neg hgo]

theorem repeated_eq (s : TokenStream P) :
    repeated go item s = if go s.current.kind = true then
      (item >>= fun a => repeated go item >>= fun as => pure (a :: as)) s else .ok ([], s) := by
  have hstep : repeated go item s = rounds go item (s.ahead.length + 1) s :=
    rounds_eq_rounds heof hitem (Nat.le_refl _) (Nat.le_succ _)
  rw [hstep, rounds_succ]
  by_cases hgo : go s.current.kind = true
  · rw [if_pos hgo, if_pos hgo]
    refine bind_congr_of_ok fun a s' h => ?_
    have hlt := hitem s a s' hgo h
    have hrest : rounds go item s.ahead.length s' = repeated go item s' :=
      rounds_eq_rounds heof hitem (by omega) (Nat.le_refl _)
    simp only [bind, StateT.bind, hrest]
  · rw [if_neg hgo, if_neg hgo]

end Rounds

namespace Outcome

variable {limits limits' : Limits} {f : Form} {more : List TokenKind} {n : Nat}
  {item item' : Parser P α} {go : TokenKind → Bool}

/-- A loop over items of a form, which stops where none of the classes that begin one follows. -/
theorem repeated (hgo : ∀ k, go k = true ↔ k ∈ more) (heof : .eof ∉ more)
    (hmore : ∀ k ∈ more, f.Viable [k])
    (hshort : ∀ s a s', go s.current.kind = true → item s = .ok (a, s') →
      s'.ahead.length < s.ahead.length)
    (hshort' : ∀ s a s', go s.current.kind = true → item' s = .ok (a, s') →
      s'.ahead.length < s.ahead.length)
    (hitem : ∀ s, s.current.kind ∈ more → Outcome limits limits' f [] 0 n item item' s)
    (s : TokenStream P) :
    Outcome limits limits' (star f) more 0 n (Parser.repeated go item) (Parser.repeated go item')
      s := by
  have hstop : go .eof = false := by
    rw [← Bool.not_eq_true, hgo]
    exact heof
  -- Each round takes tokens, so the induction is on how many are ahead.
  induction hn : s.ahead.length using Nat.strongRecOn generalizing s with
  | ind len ih =>
      subst hn
      by_cases hs : s.current.kind ∈ more
      · have hround := (hitem s hs).bind (l := fun a => Parser.repeated go item' >>= fun as =>
          Pure.pure (a :: as)) fun a s₁ ha =>
          (ih _ (hshort s a s₁ ((hgo _).2 hs) ha) s₁ rfl).map (a :: ·)
        refine (hround.within fun ks hks => ?_).congr fun t ht _ => ?_
        · cases hks with
          | seq hf hstar => exact .starCons hf hstar
        · have htgo : go t.current.kind = true := by rwa [ht.kind, hgo]
          rw [repeated_eq hstop hshort, repeated_eq hstop hshort', if_pos htgo, if_pos htgo]
          exact ⟨rfl, rfl⟩
      · refine .passes (a := [])
          ⟨⟨.nil s, by simp, Nat.zero_le _⟩, .starNil, hs, fun k hk => (hmore k hk).star, ?_⟩
        intro t u ht hu
        obtain rfl := ht.unique (.nil t)
        have hugo : ¬ go u.current.kind = true := by rwa [hu.kind, hgo]
        rw [repeated_eq hstop hshort, repeated_eq hstop hshort', if_neg hugo, if_neg hugo]
        exact ⟨rfl, rfl⟩

end Outcome

end Parser

end ActorLang
