import InventoryQuery.Proofs.Grammar.Derivation

/-! Deriving the same part of the grammar from other tokens. What can be derived, and how deep it
nests, depends on the kinds of the tokens only; the expression depends on what their texts say too,
and on nothing else. -/

namespace InventoryQuery

open Grammar

/-- What the grammar can tell of a token: its kind, its name if it is a phrase, and the character that
is to blame if it is none. -/
def Token.sense (t : Token) : Kind × String :=
  (t.kind, match t.kind with
    | .phrase => phraseName t.text
    | .invalid => String.ofList (t.text.take 1)
    | _ => String.ofList t.text)

theorem Token.phraseName_of_sense {t u : Token} (h : t.sense = u.sense) (phrase : u.kind = .phrase) :
    phraseName t.text = phraseName u.text := by
  obtain ⟨kinds, texts⟩ := Prod.mk.inj h
  rw [kinds, phrase] at texts
  exact texts

theorem Token.text_of_sense {t u : Token} (h : t.sense = u.sense) (phrase : u.kind ≠ .phrase)
    (invalid : u.kind ≠ .invalid) : t.text = u.text := by
  obtain ⟨kinds, texts⟩ := Prod.mk.inj h
  rw [kinds] at texts
  split at texts
  · contradiction
  · contradiction
  · exact String.ofList_injective texts

theorem Token.senses_of_texts {ts us : List Token}
    (h : us.map (fun t => (t.kind, t.text)) = ts.map (fun t => (t.kind, t.text))) :
    us.map Token.sense = ts.map Token.sense := by
  have read := congrArg (List.map fun p : Kind × List Char => Token.sense ⟨p.1, p.2, 0⟩) h
  rwa [List.map_map, List.map_map] at read

namespace Grammar

/-- The same part of the grammar; the expressions to its left may differ unless `same` forbids
it. -/
inductive Part.Alike (same : Prop) : Part → Part → Prop
  | rule {r : Rule} : Alike same (.rule r) (.rule r)
  | more {r : Rule} {l k : Expr} : (same → k = l) → Alike same (.more r l) (.more r k)
  | items {r : Rule} {es es' : List Expr} :
    (same → es' = es) → Alike same (.items r es) (.items r es')

section relabel

variable {β : Type} {f : Token → β} {same : Prop}

theorem leaf?_relabel (hk : ∀ t u, f t = f u → t.kind = u.kind)
    (hx : same → ∀ t u, f t = f u → t.sense = u.sense) {t t' : Token} (ht : f t' = f t)
    {s : Shape Expr} (h : leaf? t = some s) : ∃ s', leaf? t' = some s' ∧ (same → s' = s) := by
  have hk := hk _ _ ht
  unfold leaf? at h ⊢
  rw [hk]
  split at h <;> cases h <;> refine ⟨_, rfl, fun s => ?_⟩ <;> rename_i kind
  · rw [Token.text_of_sense (hx s _ _ ht) (by simp [kind]) (by simp [kind])]
  · rw [Token.text_of_sense (hx s _ _ ht) (by simp [kind]) (by simp [kind])]
  · rfl
  · rfl

/-- Tokens with the same kinds form the same parts with the same nesting; with the same sense as
well, the same expressions. -/
theorem Derives.relabel (same : Prop) (hk : ∀ t u, f t = f u → t.kind = u.kind)
    (hx : same → ∀ t u, f t = f u → t.sense = u.sense) {p : Part} {ts : List Token} {e : Expr}
    {n : Nat} (h : Derives p ts e n) :
    ∀ {q us}, p.Alike same q → us.map f = ts.map f → ∃ e', Derives q us e' n ∧ (same → e' = e) := by
  induction h with
  | conditional hi ht he _ _ _ ic ia ib =>
    intro _ us alike hu
    rcases alike with ⟨⟩
    simp only [List.map_cons, List.map_append, List.map_eq_cons_iff, List.map_eq_append_iff] at hu
    obtain ⟨i', _, rfl, ei, cs', _, rfl, hc, t', _, rfl, et, as', _, rfl, ha, e', bs', rfl, ee,
      hb⟩ := hu
    obtain ⟨c', dc, cc⟩ := ic .rule hc
    obtain ⟨a', da, ca⟩ := ia .rule ha
    obtain ⟨b', db, cb⟩ := ib .rule hb
    exact ⟨_, .conditional (by rwa [hk _ _ ei]) (by rwa [hk _ _ et]) (by rwa [hk _ _ ee]) dc da db,
      fun s => by rw [cc s, ca s, cb s]⟩
  | pass hr _ ih =>
    intro _ us alike hu
    rcases alike with ⟨⟩
    obtain ⟨e', d, c⟩ := ih .rule hu
    exact ⟨e', .pass hr d, c⟩
  | @list r _ _ x _ _ _ hr _ _ ix it =>
    intro _ us alike hu
    rcases alike with ⟨⟩
    simp only [List.map_append, List.map_eq_append_iff] at hu
    obtain ⟨xs', ts', rfl, hxs, hts⟩ := hu
    obtain ⟨x', dx, cx⟩ := ix .rule hxs
    have first : Part.Alike same (.items r [x]) (.items r [x']) := .items fun s => by rw [cx s]
    obtain ⟨e', dt, ct⟩ := it first hts
    exact ⟨e', .list hr dx dt, ct⟩
  | noItem =>
    intro _ us alike hu
    rcases alike with _ | _ | @⟨_, _, es', hes⟩
    cases List.map_eq_nil_iff.1 hu
    exact ⟨_, .noItem, fun s => by rw [hes s]⟩
  | @item r done _ _ _ x _ _ _ ht _ _ ix it =>
    intro _ us alike hu
    rcases alike with _ | _ | @⟨_, _, es', hes⟩
    simp only [List.map_cons, List.map_append, List.map_eq_cons_iff, List.map_eq_append_iff] at hu
    obtain ⟨t', _, rfl, et, xs', ts', rfl, hxs, hts⟩ := hu
    obtain ⟨x', dx, cx⟩ := ix .rule hxs
    have longer : Part.Alike same (.items r (done ++ [x])) (.items r (es' ++ [x'])) :=
      .items fun s => by rw [hes s, cx s]
    obtain ⟨e', dt, ct⟩ := it longer hts
    exact ⟨e', .item (by rwa [hk _ _ et]) dx dt, ct⟩
  | compared ho _ _ ix iy =>
    intro _ us alike hu
    rcases alike with ⟨⟩
    simp only [List.map_cons, List.map_append, List.map_eq_cons_iff, List.map_eq_append_iff] at hu
    obtain ⟨xs', _, rfl, hxs, o', ys', rfl, eo, hys⟩ := hu
    obtain ⟨x', dx, cx⟩ := ix .rule hxs
    obtain ⟨y', dy, cy⟩ := iy .rule hys
    exact ⟨_, .compared (by rwa [hk _ _ eo]) dx dy, fun s => by
      rw [Token.text_of_sense (hx s _ _ eo) (by simp [ho]) (by simp [ho]), cx s, cy s]⟩
  | chain hr _ _ ix it =>
    intro _ us alike hu
    rcases alike with ⟨⟩
    simp only [List.map_append, List.map_eq_append_iff] at hu
    obtain ⟨xs', ts', rfl, hxs, hts⟩ := hu
    obtain ⟨x', dx, cx⟩ := ix .rule hxs
    obtain ⟨e', dt, ct⟩ := it (.more cx) hts
    exact ⟨e', .chain hr dx dt, ct⟩
  | done =>
    intro _ us alike hu
    rcases alike with _ | @⟨_, _, l', hl⟩
    cases List.map_eq_nil_iff.1 hu
    exact ⟨l', .done, hl⟩
  | @operator r left t o _ _ _ _ _ _ ho _ _ ix it =>
    intro _ us alike hu
    rcases alike with _ | @⟨_, _, l', hl⟩
    simp only [List.map_cons, List.map_append, List.map_eq_cons_iff, List.map_eq_append_iff] at hu
    obtain ⟨t', _, rfl, et, xs', ts', rfl, hxs, hts⟩ := hu
    obtain ⟨x', dx, cx⟩ := ix .rule hxs
    obtain ⟨e', dt, ct⟩ := it (.more (k := .node (.binary o l' x')) fun s => by rw [hl s, cx s]) hts
    exact ⟨e', .operator (by rwa [hk _ _ et]) dx dt, ct⟩
  | prefixed ho _ ix =>
    intro _ us alike hu
    rcases alike with ⟨⟩
    simp only [List.map_cons, List.map_eq_cons_iff] at hu
    obtain ⟨t', xs', rfl, et, hxs⟩ := hu
    obtain ⟨x', dx, cx⟩ := ix .rule hxs
    exact ⟨_, .prefixed (by rwa [hk _ _ et]) dx, fun s => by rw [cx s]⟩
  | @typed left a p _ _ _ ha hp _ it =>
    intro _ us alike hu
    rcases alike with _ | @⟨_, _, l', hl⟩
    simp only [List.map_cons, List.map_eq_cons_iff] at hu
    obtain ⟨a', _, rfl, ea, p', ts', rfl, ep, hts⟩ := hu
    obtain ⟨e', dt, ct⟩ := it (.more (k := .node (.cast l' (phraseName p'.text)))
      fun s => by rw [hl s, Token.phraseName_of_sense (hx s _ _ ep) hp]) hts
    exact ⟨e', .typed (by rwa [hk _ _ ea]) (by rwa [hk _ _ ep]) dt, ct⟩
  | sourced ho _ _ ix iy =>
    intro _ us alike hu
    rcases alike with ⟨⟩
    simp only [List.map_cons, List.map_append, List.map_eq_cons_iff, List.map_eq_append_iff] at hu
    obtain ⟨xs', _, rfl, hxs, o', ys', rfl, eo, hys⟩ := hu
    obtain ⟨x', dx, cx⟩ := ix .rule hxs
    obtain ⟨y', dy, cy⟩ := iy .rule hys
    exact ⟨_, .sourced (by rwa [hk _ _ eo]) dx dy, fun s => by rw [cx s, cy s]⟩
  | its hi _ _ ix it =>
    intro _ us alike hu
    rcases alike with ⟨⟩
    simp only [List.map_cons, List.map_append, List.map_eq_cons_iff, List.map_eq_append_iff] at hu
    obtain ⟨i', _, rfl, ei, xs', ts', rfl, hxs, hts⟩ := hu
    obtain ⟨x', dx, cx⟩ := ix .rule hxs
    obtain ⟨e', dt, ct⟩ := it (.more (k := .node (.property x' (.node .it)))
      fun s => by rw [cx s]) hts
    exact ⟨e', .its (by rwa [hk _ _ ei]) dx dt, ct⟩
  | @arrow left w _ _ _ _ _ _ hw _ _ ix it =>
    intro _ us alike hu
    rcases alike with _ | @⟨_, _, l', hl⟩
    simp only [List.map_cons, List.map_append, List.map_eq_cons_iff, List.map_eq_append_iff] at hu
    obtain ⟨w', _, rfl, ew, xs', ts', rfl, hxs, hts⟩ := hu
    obtain ⟨x', dx, cx⟩ := ix .rule hxs
    obtain ⟨e', dt, ct⟩ := it (.more (k := .node (.property x' l')) fun s => by rw [hl s, cx s]) hts
    exact ⟨e', .arrow (by rwa [hk _ _ ew]) dx dt, ct⟩
  | @arrowExists left w t o _ _ _ hw ht _ it =>
    intro _ us alike hu
    rcases alike with _ | @⟨_, _, l', hl⟩
    simp only [List.map_cons, List.map_eq_cons_iff] at hu
    obtain ⟨w', _, rfl, ew, t', ts', rfl, et, hts⟩ := hu
    obtain ⟨e', dt, ct⟩ := it (.more (k := .node (.unary o l')) fun s => by rw [hl s]) hts
    exact ⟨e', .arrowExists (by rwa [hk _ _ ew]) (by rwa [hk _ _ et]) dt, ct⟩
  | @filtered left w _ _ _ _ _ _ hw _ _ ix it =>
    intro _ us alike hu
    rcases alike with _ | @⟨_, _, l', hl⟩
    simp only [List.map_cons, List.map_append, List.map_eq_cons_iff, List.map_eq_append_iff] at hu
    obtain ⟨w', _, rfl, ew, xs', ts', rfl, hxs, hts⟩ := hu
    obtain ⟨x', dx, cx⟩ := ix .rule hxs
    obtain ⟨e', dt, ct⟩ := it (.more (k := .node (.whose l' x')) fun s => by rw [hl s, cx s]) hts
    exact ⟨e', .filtered (by rwa [hk _ _ ew]) dx dt, ct⟩
  | phrase hp =>
    intro _ us alike hu
    rcases alike with ⟨⟩
    simp only [List.map_cons, List.map_nil, List.map_eq_cons_iff, List.map_eq_nil_iff] at hu
    obtain ⟨p', _, rfl, ep, rfl⟩ := hu
    exact ⟨_, .phrase (by rwa [hk _ _ ep]), fun s => by rw [Token.phraseName_of_sense (hx s _ _ ep) hp]⟩
  | applied hp _ ix =>
    intro _ us alike hu
    rcases alike with ⟨⟩
    simp only [List.map_cons, List.map_eq_cons_iff] at hu
    obtain ⟨p', xs', rfl, ep, hxs⟩ := hu
    obtain ⟨x', dx, cx⟩ := ix .rule hxs
    exact ⟨_, .applied (by rwa [hk _ _ ep]) dx, fun s => by rw [Token.phraseName_of_sense (hx s _ _ ep) hp, cx s]⟩
  | parens ho hc _ ix =>
    intro _ us alike hu
    rcases alike with ⟨⟩
    simp only [List.map_cons, List.map_append, List.map_nil, List.map_eq_cons_iff,
      List.map_eq_append_iff, List.map_eq_nil_iff] at hu
    obtain ⟨o', _, rfl, eo, xs', _, rfl, hxs, c', _, rfl, ec, rfl⟩ := hu
    obtain ⟨x', dx, cx⟩ := ix .rule hxs
    exact ⟨_, .parens (by rwa [hk _ _ eo]) (by rwa [hk _ _ ec]) dx, fun s => by rw [cx s]⟩
  | leaf hs =>
    intro _ us alike hu
    rcases alike with ⟨⟩
    simp only [List.map_cons, List.map_nil, List.map_eq_cons_iff, List.map_eq_nil_iff] at hu
    obtain ⟨t', _, rfl, et, rfl⟩ := hu
    obtain ⟨s', hs', cs⟩ := leaf?_relabel hk hx et hs
    exact ⟨_, .leaf hs', fun s => by rw [cs s]⟩

/-- Only the kinds of the tokens decide what can be derived. -/
theorem Derives.of_kinds {r : Rule} {ts us : List Token} {e : Expr} {n : Nat}
    (h : Derives (.rule r) ts e n) (hu : us.map (·.kind) = ts.map (·.kind)) :
    ∃ e', Derives (.rule r) us e' n := by
  obtain ⟨e', d, -⟩ := h.relabel False (f := (·.kind)) (fun _ _ => id) (fun s => s.elim) .rule hu
  exact ⟨e', d⟩

theorem Part.Alike.refl (same : Prop) (p : Part) : p.Alike same p := by
  cases p with
  | rule => exact .rule
  | more => exact .more fun _ => rfl
  | items => exact .items fun _ => rfl

/-- Nothing but the sense of the tokens makes a difference. -/
theorem Derives.of_senses {p : Part} {ts us : List Token} {e : Expr} {n : Nat} (h : Derives p ts e n)
    (hu : us.map Token.sense = ts.map Token.sense) : Derives p us e n := by
  obtain ⟨e', d, c⟩ := h.relabel True (fun _ _ h => congrArg Prod.fst h) (fun _ _ _ => id) (.refl True p) hu
  exact c trivial ▸ d

theorem Derives.of_texts {p : Part} {ts us : List Token} {e : Expr} {n : Nat} (h : Derives p ts e n)
    (hu : us.map (fun t => (t.kind, t.text)) = ts.map (fun t => (t.kind, t.text))) : Derives p us e n :=
  h.of_senses (Token.senses_of_texts hu)

end relabel

end Grammar

end InventoryQuery
