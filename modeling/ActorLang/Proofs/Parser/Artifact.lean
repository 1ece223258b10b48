import ActorLang.Parser.Artifact
import ActorLang.Proofs.Yield

/-!
# Names, artifacts and argument maps are read exactly

Each parser of the rules that do not nest succeeds on a stream if and only if the stream yields the
leaves of its result.
-/

namespace ActorLang

variable {P α : Type}

@[simp] theorem Ident.leaf_kind (id : Ident P) : id.leaf.kind = .ident := rfl

@[simp] theorem TypeIdent.leaf_kind (type : TypeIdent P) : type.leaf.kind = .typeName := rfl

@[simp] theorem Literal.leaf_kind (l : Literal P) : l.leaf.kind = .str := rfl

namespace Parser

open TokenStream Leaf

/-- A parser that takes one token of a class and keeps its text and place. -/
theorem expect_bind_pure_eq_ok {k : TokenKind} (hk : k ≠ .eof) {f : String → P → α}
    (hf : ∀ x p y q, f x p = f y q ↔ x = y ∧ p = q) {s s' : TokenStream P} {x : String}
    {pos : P} :
    (expect k >>= fun t => pure (f t.text t.pos)) s = .ok (f x pos, s') ↔
      s.Gives (.word k x pos) s' := by
  simp only [bind_eq_ok, expect_eq_ok hk]
  constructor
  · rintro ⟨s₁, t, ⟨-, h⟩, he⟩
    have he' : f t.text t.pos = f x pos ∧ s₁ = s' := by simpa using he
    obtain ⟨rfl, rfl⟩ := (hf _ _ _ _).1 he'.1
    exact he'.2 ▸ h
  · intro h
    exact ⟨s', ⟨k, x, pos⟩, ⟨rfl, h⟩, rfl⟩

theorem ident_eq_ok {s s' : TokenStream P} {id : Ident P} :
    ident s = .ok (id, s') ↔ s.Gives id.leaf s' :=
  expect_bind_pure_eq_ok (f := Ident.mk) (by decide) (by simp)

theorem typeName_eq_ok {s s' : TokenStream P} {type : TypeIdent P} :
    typeName s = .ok (type, s') ↔ s.Gives type.leaf s' :=
  expect_bind_pure_eq_ok (f := TypeIdent.mk) (by decide) (by simp)

theorem literal_eq_ok {s s' : TokenStream P} {l : Literal P} :
    literal s = .ok (l, s') ↔ s.Gives l.leaf s' :=
  expect_bind_pure_eq_ok (f := Literal.mk) (by decide) (by simp)

theorem quotedIdent_eq_ok {s s' : TokenStream P} {id : Ident P} :
    quotedIdent s = .ok (id, s') ↔ s.Yields id.quotedLeaves s' := by
  simp [Stepwise.quotedIdent, bind_eq_ok, map_eq_ok, expect_eq_ok, ident_eq_ok, Ident.quotedLeaves,
    yields_cons, gives_mark]

theorem idents_eq_ok {s s' : TokenStream P} {ids : List (Ident P)} :
    idents s = .ok (ids, s') ↔
      ids ≠ [] ∧ s.Yields (Ident.row ids) s' ∧ s'.current.kind ≠ .comma := by
  have h : commaSeparated ident s = .ok (ids, s') ↔
      ids ≠ [] ∧ s.Yields (Ident.row ids) s' ∧ ListEnds (fun _ _ => True) ids s' :=
    commaSeparated_eq_ok (by simp [ident_eq_ok]) (by simp)
  simpa [idents, ListEnds] using h

theorem identsInParens_eq_ok {s s' : TokenStream P} {ids : List (Ident P)} :
    identsInParens s = .ok (ids, s') ↔
      s.Yields (mark .lparen :: (Ident.row ids ++ [mark .rparen])) s' := by
  simp only [Stepwise.identsInParens, bind_eq_ok, expect_eq_ok (k := .lparen) (by decide),
    nextIs_bind, beq_iff_eq, yields_cons (l := mark .lparen), gives_mark (k := .lparen),
    yields_append, yields_singleton, gives_mark (k := .rparen)]
  constructor
  · rintro ⟨s₁, t, ht, h⟩
    refine ⟨s₁, ⟨t, ht⟩, ?_⟩
    split at h
    · simp only [bind_eq_ok, expectOr_eq_ok (k := .rparen) (by decide)] at h
      obtain ⟨s₂, ids', hids, s₃, u, hu, he⟩ := h
      obtain ⟨rfl, rfl⟩ : ids' = ids ∧ s₃ = s' := by simpa using he
      exact ⟨s₂, (idents_eq_ok.1 hids).2.1, u, hu⟩
    · simp only [bind_eq_ok, expectOr_eq_ok (k := .rparen) (by decide), pure_apply] at h
      obtain ⟨s₂, ids', hids, s₃, u, hu, he⟩ := h
      obtain ⟨rfl, rfl⟩ : [] = ids' ∧ s₁ = s₂ := by simpa using hids
      obtain ⟨rfl, rfl⟩ : [] = ids ∧ s₃ = s' := by simpa using he
      exact ⟨s₁, rfl, u, hu⟩
  · rintro ⟨s₁, ⟨t, ht⟩, s₂, hids, u, hu⟩
    refine ⟨s₁, t, ht, ?_⟩
    have hr : s₂.current.kind = .rparen := hu.2.current_kind
    cases ids with
    | nil =>
        obtain rfl : s₁ = s₂ := hids
        rw [if_neg (by simp [hr])]
        simp only [bind_eq_ok, expectOr_eq_ok (k := .rparen) (by decide), pure_apply]
        exact ⟨s₁, [], rfl, s', u, hu, rfl⟩
    | cons id ids =>
        have hk : s₁.current.kind = .ident := by
          obtain ⟨_, hid, -⟩ := hids
          exact hid.current_kind
        rw [if_pos hk]
        simp only [bind_eq_ok, expectOr_eq_ok (k := .rparen) (by decide), pure_apply]
        exact ⟨s₂, id :: ids, idents_eq_ok.2 ⟨by simp, hids, by simp [hr]⟩, s', u, hu, rfl⟩

theorem reference_eq_ok {s s' : TokenStream P} {r : Reference P} :
    reference s = .ok (r, s') ↔ s.Gives r.leaf s' := by
  have hkind : s.Gives r.leaf s' → s.current.kind = r.leaf.kind := fun h => h.current_kind
  simp only [Stepwise.reference, peek_bind]
  generalize s.current.kind = k at hkind
  cases r with
  | name id => split <;> simp_all [map_eq_ok, ident_eq_ok, Reference.leaf]
  | literal lit => split <;> simp_all [map_eq_ok, literal_eq_ok, Reference.leaf]

theorem typeAndSource_eq_ok {s s' : TokenStream P} {type : TypeIdent P} {source : Reference P} :
    typeAndSource s = .ok ((type, source), s') ↔
      s.Yields [type.leaf, mark .comma, source.leaf, mark .rparen] s' := by
  simp [Stepwise.typeAndSource, bind_eq_ok, map_eq_ok, expect_eq_ok, typeName_eq_ok,
    reference_eq_ok, yields_cons, gives_mark]

theorem artifact_eq_ok {s s' : TokenStream P} {a : Artifact P} :
    artifact s = .ok (a, s') ↔ s.Yields a.leaves s' := by
  simp only [Stepwise.artifact, peek_bind]
  constructor
  · intro h
    generalize hk : s.current.kind = k at h
    split at h
    · obtain ⟨s₁, t, ht, h⟩ := take_bind_eq_ok hk (by decide) h
      obtain ⟨s₂, ⟨type, source⟩, hsrc, he⟩ := bind_eq_ok.1 h
      obtain ⟨rfl, rfl⟩ : Artifact.literal type source t.pos = a ∧ s₂ = s' := by simpa using he
      exact .cons ht.key (typeAndSource_eq_ok.1 hsrc)
    · obtain ⟨id, hid, rfl⟩ : ∃ id, s.Gives id.leaf s' ∧ .named id = a := by
        simpa [map_eq_ok, ident_eq_ok] using h
      exact yields_singleton.2 hid
    · simp at h
  · intro h
    cases a with
    | literal type source pos =>
        obtain ⟨s₁, hg, h⟩ := h
        simp only [hg.current_kind, key_kind]
        obtain ⟨x, hx⟩ := take_of_key hg (by decide)
        rw [bind_of_eq_ok hx]
        exact bind_of_eq_ok (typeAndSource_eq_ok.2 h)
    | named id =>
        have hg : s.Gives id.leaf s' := yields_singleton.1 h
        simp only [hg.current_kind, Ident.leaf_kind]
        exact bind_of_eq_ok (ident_eq_ok.2 hg)

theorem mapValue_eq_ok {s s' : TokenStream P} {v : MapValue P} :
    mapValue s = .ok (v, s') ↔ s.Yields v.leaves s' := by
  simp only [Stepwise.mapValue, peek_bind]
  constructor
  · intro h
    generalize s.current.kind = k at h
    split at h
    · obtain ⟨a, ha, rfl⟩ : ∃ a, s.Yields a.leaves s' ∧ .artifact a = v := by
        simpa [map_eq_ok, artifact_eq_ok] using h
      exact ha
    · obtain ⟨a, ha, rfl⟩ : ∃ a, s.Yields a.leaves s' ∧ .artifact a = v := by
        simpa [map_eq_ok, artifact_eq_ok] using h
      exact ha
    · obtain ⟨type, ht, rfl⟩ : ∃ type, s.Gives type.leaf s' ∧ .artifactType type = v := by
        simpa [map_eq_ok, typeName_eq_ok] using h
      exact yields_singleton.2 ht
    · obtain ⟨id, hid, rfl⟩ : ∃ id, s.Yields id.quotedLeaves s' ∧ .quoted id = v := by
        simpa [map_eq_ok, quotedIdent_eq_ok] using h
      exact hid
    · simp at h
  · intro h
    cases v with
    | artifact a =>
        have ha := bind_of_eq_ok (f := fun a => pure (MapValue.artifact a)) (artifact_eq_ok.2 h)
        cases a with
        | literal type source pos =>
            obtain ⟨s₁, hg, -⟩ := h
            simp only [hg.current_kind, key_kind]
            exact ha
        | named id =>
            obtain ⟨s₁, hg, -⟩ := h
            simp only [hg.current_kind, Ident.leaf_kind]
            exact ha
    | artifactType type =>
        have hg := yields_singleton.1 h
        simp only [hg.current_kind, TypeIdent.leaf_kind]
        exact bind_of_eq_ok (typeName_eq_ok.2 hg)
    | quoted id =>
        have hq := bind_of_eq_ok (f := fun id => pure (MapValue.quoted id)) (quotedIdent_eq_ok.2 h)
        obtain ⟨s₁, hg, -⟩ := h
        simp only [hg.current_kind, mark_kind]
        exact hq

/-- An entry without a value ends before anything but a colon. -/
theorem mapItem_eq_ok {s s' : TokenStream P} {i : MapItem P} :
    mapItem s = .ok (i, s') ↔
      s.Yields i.leaves s' ∧ (i.value = none → s'.current.kind ≠ .colon) := by
  simp only [Stepwise.mapItem, bind_eq_ok, quotedIdent_eq_ok, nextIs_bind, beq_iff_eq]
  constructor
  · rintro ⟨s₁, id, hid, h⟩
    split at h
    case isTrue hc =>
      obtain ⟨s₂, t, ht, h⟩ := take_bind_eq_ok hc (by decide) h
      obtain ⟨v, hv, rfl⟩ : ∃ v, s₂.Yields v.leaves s' ∧ ⟨id, some v⟩ = i := by
        simpa [map_eq_ok, mapValue_eq_ok] using h
      exact ⟨hid.append (.cons ht.mark hv), by simp⟩
    case isFalse hc =>
      obtain ⟨rfl, rfl⟩ : ⟨id, none⟩ = i ∧ s₁ = s' := by simpa using h
      exact ⟨hid.append rfl, fun _ => hc⟩
  · rintro ⟨h, hstop⟩
    obtain ⟨s₁, hid, hv⟩ := yields_append.1 h
    refine ⟨s₁, i.key, hid, ?_⟩
    obtain ⟨key, value⟩ := i
    cases value with
    | none =>
        obtain rfl : s₁ = s' := hv
        rw [if_neg (hstop rfl)]
        rfl
    | some v =>
        obtain ⟨s₂, hg, hv⟩ := hv
        have hc : s₁.current.kind = .colon := hg.current_kind
        rw [if_pos hc, take_bind_eq_expect hc]
        refine (expect_bind_of_mark hg (by decide) _).trans ?_
        exact bind_of_eq_ok (mapValue_eq_ok.2 hv)

theorem argMap_eq_ok {s s' : TokenStream P} {m : ArgMap P} :
    argMap s = .ok (m, s') ↔ m.items ≠ [] ∧ s.Yields m.leaves s' := by
  have hitems : ∀ {s s' : TokenStream P} {is : List (MapItem P)},
      commaSeparated mapItem s = .ok (is, s') ↔
        is ≠ [] ∧ s.Yields (commaRow MapItem.leaves is) s' ∧
          ListEnds (fun i k => i.value = none → k ≠ .colon) is s' :=
    commaSeparated_eq_ok (fun _ _ _ => mapItem_eq_ok) (by simp)
  constructor
  · intro h
    obtain ⟨s₁, t, ht, h⟩ := expectOr_bind_eq_ok (by decide) h
    obtain ⟨s₂, items, hi, h⟩ := bind_eq_ok.1 h
    obtain ⟨s₃, u, hu, he⟩ := expectOr_bind_eq_ok (by decide) h
    obtain ⟨rfl, rfl⟩ : ⟨items, t.pos⟩ = m ∧ s₃ = s' := by simpa using he
    obtain ⟨hne, hy, -⟩ := hitems.1 hi
    exact ⟨hne, .cons ht.key (hy.append (yields_singleton.2 hu.mark))⟩
  · rintro ⟨hne, s₁, ht, h⟩
    obtain ⟨s₂, hy, hr⟩ := yields_append.1 h
    have hr := yields_singleton.1 hr
    obtain ⟨x, hx⟩ := expect_of_key ht (by decide)
    have hi := hitems.2 ⟨hne, hy, by simp [ListEnds, hr.current_kind]⟩
    exact (bind_of_eq_ok hx).trans
      ((bind_of_eq_ok hi).trans (expectOr_bind_of_mark hr (by decide) _))

theorem mapInParens_eq_ok {s s' : TokenStream P} {m : ArgMap P} :
    mapInParens s = .ok (m, s') ↔
      m.items ≠ [] ∧ s.Yields (mark .lparen :: (m.leaves ++ [mark .rparen])) s' := by
  constructor
  · intro h
    obtain ⟨s₁, t, ht, h⟩ := expectOr_bind_eq_ok (by decide) h
    obtain ⟨s₂, m', hm, h⟩ := bind_eq_ok.1 h
    obtain ⟨s₃, u, hu, he⟩ := expectOr_bind_eq_ok (by decide) h
    obtain ⟨rfl, rfl⟩ : m' = m ∧ s₃ = s' := by simpa using he
    obtain ⟨hne, hy⟩ := argMap_eq_ok.1 hm
    exact ⟨hne, .cons ht.mark (hy.append (yields_singleton.2 hu.mark))⟩
  · rintro ⟨hne, s₁, ht, h⟩
    obtain ⟨s₂, hy, hr⟩ := yields_append.1 h
    exact (expect_bind_of_mark ht (by decide) _).trans
      ((bind_of_eq_ok (argMap_eq_ok.2 ⟨hne, hy⟩)).trans
        (expect_bind_of_mark (yields_singleton.1 hr) (by decide) _))

end Parser

end ActorLang
