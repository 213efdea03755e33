import InventoryQuery.Cursor.Completion
import Mathlib.Data.List.Induction
import Mathlib.Data.List.Nodup
import Mathlib.Order.Basic

/-! The completions of a list of facts are the facts with a singular phrase whose label no earlier
one of them has, in the order of the list and numbered without gaps. A fact without a singular
phrase takes no label away. -/

namespace InventoryQuery.Cursor

/-- The fact at place `i` has a singular phrase, and none before it has one under the same label. -/
structure Offered (facts : List PropertyFact) (i : Nat) (f : PropertyFact) : Prop where
  here : facts[i]? = some f
  singular : f.singular.isSome
  fresh : ∀ j < i, ∀ g, facts[j]? = some g → g.singular.isSome → label g ≠ label f

/-- One item for each fact that is offered, in the order of their places and numbered by it. -/
structure Lists (facts : List PropertyFact) (places : List (Nat × PropertyFact)) (items : List Completion) :
    Prop where
  ordered : places.Pairwise (·.1 < ·.1)
  mem_iff : ∀ i f, (i, f) ∈ places ↔ Offered facts i f
  items_eq : items.map some = places.mapIdx fun k e => (completionOf? e.2).map ({ · with priority := k })

theorem completionOf?_of_singular {f : PropertyFact} (h : f.singular.isSome) :
    ∃ c, completionOf? f = some c ∧ c.label = label f ∧ c.priority = standardPriority := by
  simp [completionOf?, h]

theorem completionOf?_eq_none {f : PropertyFact} (h : ¬f.singular.isSome) : completionOf? f = none := by
  rw [completionOf?, if_neg h]

section concat

variable (facts : List PropertyFact) (f : PropertyFact)

/-- The labels that the facts with a singular phrase have. -/
theorem mem_labels_iff (l : String) :
    l ∈ (facts.filterMap completionOf?).map (·.label) ↔ ∃ g ∈ facts, g.singular.isSome ∧ label g = l := by
  simp only [List.mem_map, List.mem_filterMap]
  constructor
  · rintro ⟨c, ⟨g, hg, hc⟩, rfl⟩
    by_cases singular : g.singular.isSome
    · obtain ⟨d, hd, same, -⟩ := completionOf?_of_singular singular
      obtain rfl : d = c := Option.some.inj (hd.symm.trans hc)
      exact ⟨g, hg, singular, same.symm⟩
    · rw [completionOf?_eq_none singular] at hc
      cases hc
  · rintro ⟨g, hg, singular, rfl⟩
    obtain ⟨c, hc, same, -⟩ := completionOf?_of_singular singular
    exact ⟨c, ⟨g, hg, hc⟩, same⟩

/-- The last fact is offered when it has a singular phrase and its label is new. What is offered
before it stays as it is. -/
theorem offered_concat_iff (i : Nat) (g : PropertyFact) :
    Offered (facts ++ [f]) i g ↔ Offered facts i g ∨ i = facts.length ∧ g = f ∧ f.singular.isSome ∧
      ∀ g ∈ facts, g.singular.isSome → label g ≠ label f := by
  have before : ∀ j < facts.length, (facts ++ [f])[j]? = facts[j]? := fun j hj =>
    List.getElem?_append_left hj
  constructor
  · intro ⟨here, singular, fresh⟩
    rcases Nat.lt_trichotomy i facts.length with below | rfl | above
    · refine .inl ⟨before i below ▸ here, singular, fun j hj g' there => ?_⟩
      exact fresh j hj g' (before j (Nat.lt_trans hj below) ▸ there)
    · obtain rfl : f = g := by simpa using here
      refine .inr ⟨rfl, rfl, singular, fun g' hg' => ?_⟩
      obtain ⟨j, hj, rfl⟩ := List.getElem_of_mem hg'
      exact fresh j hj _ (by rw [before j hj, List.getElem?_eq_getElem hj])
    · have behind : (facts ++ [f]).length ≤ i := by simpa using Nat.succ_le_of_lt above
      rw [List.getElem?_eq_none behind] at here
      cases here
  · rintro (⟨here, singular, fresh⟩ | ⟨rfl, rfl, singular, fresh⟩)
    · have below := (List.getElem?_eq_some_iff.1 here).1
      refine ⟨before i below ▸ here, singular, fun j hj g' there => ?_⟩
      exact fresh j hj g' (before j (Nat.lt_trans hj below) ▸ there)
    · refine ⟨by simp, singular, fun j hj g' there => ?_⟩
      exact fresh g' (List.mem_of_getElem? (before j hj ▸ there))

theorem firstOfEachLabel_concat (seen : List String) (cs : List Completion) (c : Completion) :
    firstOfEachLabel seen (cs ++ [c]) =
      firstOfEachLabel seen cs ++ if c.label ∈ seen ∨ c.label ∈ cs.map (·.label) then [] else [c] := by
  induction cs generalizing seen with
  | nil => by_cases h : c.label ∈ seen <;> simp [firstOfEachLabel, h]
  | cons d cs ih =>
    by_cases repeated : d.label ∈ seen
    · have again : c.label = d.label → c.label ∈ seen := fun same => same ▸ repeated
      simp only [List.cons_append, firstOfEachLabel, List.contains_eq_mem, repeated, decide_true,
        if_true, ih, List.map_cons, List.mem_cons]
      grind
    · simp only [List.cons_append, firstOfEachLabel, List.contains_eq_mem, repeated, decide_false,
        Bool.false_eq_true, if_false, ih, List.map_cons, List.mem_cons]
      grind

/-- The last fact is added with the next number, or not at all. -/
theorem completionsOf_concat :
    (∃ c, completionOf? f = some c ∧ (∀ g ∈ facts, g.singular.isSome → label g ≠ label f) ∧
      completionsOf (facts ++ [f]) =
        completionsOf facts ++ [{ c with priority := (completionsOf facts).length }]) ∨
    ¬(f.singular.isSome ∧ ∀ g ∈ facts, g.singular.isSome → label g ≠ label f) ∧
      completionsOf (facts ++ [f]) = completionsOf facts := by
  by_cases singular : f.singular.isSome
  · obtain ⟨c, hc, same, -⟩ := completionOf?_of_singular singular
    have known := mem_labels_iff facts c.label
    by_cases fresh : ∀ g ∈ facts, g.singular.isSome → label g ≠ label f
    · refine .inl ⟨c, hc, fresh, ?_⟩
      have new : c.label ∉ (facts.filterMap completionOf?).map (·.label) := by
        rw [known, same]
        exact fun ⟨g, hg, hs, hl⟩ => fresh g hg hs hl
      simp only [completionsOf, List.filterMap_append, List.filterMap_cons, List.filterMap_nil, hc,
        firstOfEachLabel_concat, List.not_mem_nil, new, or_self, if_false, List.mapIdx_append,
        List.length_mapIdx, List.mapIdx_cons, List.mapIdx_nil, Nat.zero_add]
    · refine .inr ⟨fun h => fresh h.2, ?_⟩
      have old : c.label ∈ (facts.filterMap completionOf?).map (·.label) := by
        rw [known, same]
        push Not at fresh
        exact fresh
      simp only [completionsOf, List.filterMap_append, List.filterMap_cons, List.filterMap_nil, hc,
        firstOfEachLabel_concat, old, or_true, if_true, List.append_nil]
  · refine .inr ⟨fun h => singular h.1, ?_⟩
    simp [completionsOf, completionOf?_eq_none singular]

end concat

namespace Lists

variable {facts : List PropertyFact} {places : List (Nat × PropertyFact)} {items : List Completion}

theorem length (h : Lists facts places items) : places.length = items.length := by
  simpa using (congrArg List.length h.items_eq).symm

theorem concat {f : PropertyFact} {c : Completion} (h : Lists facts places items)
    (hc : completionOf? f = some c) (fresh : ∀ g ∈ facts, g.singular.isSome → label g ≠ label f) :
    Lists (facts ++ [f]) (places ++ [(facts.length, f)]) (items ++ [{ c with priority := items.length }]) where
  ordered := by
    refine List.pairwise_append.2 ⟨h.ordered, List.pairwise_singleton .., fun e he d hd => ?_⟩
    obtain rfl := List.mem_singleton.1 hd
    exact (List.getElem?_eq_some_iff.1 ((h.mem_iff _ _).1 he).here).1
  mem_iff i g := by
    have singular : f.singular.isSome := by
      by_contra absent
      rw [completionOf?_eq_none absent] at hc
      cases hc
    rw [offered_concat_iff, List.mem_append, h.mem_iff, List.mem_singleton, Prod.mk.injEq]
    exact or_congr_right ⟨fun ⟨hi, hg⟩ => ⟨hi, hg, singular, fresh⟩, fun ⟨hi, hg, _⟩ => ⟨hi, hg⟩⟩
  items_eq := by
    simp [List.mapIdx_append, h.items_eq, h.length, hc]

theorem skip {f : PropertyFact} (h : Lists facts places items)
    (old : ¬(f.singular.isSome ∧ ∀ g ∈ facts, g.singular.isSome → label g ≠ label f)) :
    Lists (facts ++ [f]) places items where
  ordered := h.ordered
  mem_iff i g := by
    rw [offered_concat_iff, h.mem_iff]
    exact ⟨.inl, fun hg => hg.resolve_right fun last => old last.2.2⟩
  items_eq := h.items_eq

end Lists

theorem exists_lists (facts : List PropertyFact) : ∃ places, Lists facts places (completionsOf facts) := by
  induction facts using List.reverseRecOn with
  | nil => exact ⟨[], .nil, fun i f => ⟨nofun, fun h => nomatch h.here⟩, rfl⟩
  | append_singleton facts f ih =>
    obtain ⟨places, h⟩ := ih
    rcases completionsOf_concat facts f with ⟨c, hc, fresh, eq⟩ | ⟨old, eq⟩
    · exact ⟨_, eq ▸ h.concat hc fresh⟩
    · exact ⟨_, eq ▸ h.skip old⟩

namespace Lists

variable {facts : List PropertyFact} {places : List (Nat × PropertyFact)} {items : List Completion}

/-- The item at place `k` comes from the offered fact at place `k`. -/
theorem item (h : Lists facts places items) {k : Nat} {e : Nat × PropertyFact} (he : places[k]? = some e) :
    ∃ c, completionOf? e.2 = some c ∧ c.label = label e.2 ∧ items[k]? = some { c with priority := k } := by
  have offered := (h.mem_iff e.1 e.2).1 (List.mem_of_getElem? he)
  obtain ⟨c, hc, same, -⟩ := completionOf?_of_singular offered.singular
  have there := congrArg (·[k]?) h.items_eq
  simp only [List.getElem?_map, List.getElem?_mapIdx, he, hc, Option.map_some] at there
  obtain ⟨d, hd, eq⟩ := Option.map_eq_some_iff.1 there
  exact ⟨c, hc, same, Option.some.inj eq ▸ hd⟩

theorem labels (h : Lists facts places items) :
    items.map (·.label) = places.map fun e => label e.2 := by
  refine List.ext_getElem? fun k => ?_
  rw [List.getElem?_map, List.getElem?_map]
  cases he : places[k]? with
  | none =>
    have : items[k]? = none := by simpa [h.length] using he
    rw [this, Option.map_none, Option.map_none]
  | some e =>
    obtain ⟨c, -, same, hk⟩ := h.item he
    rw [hk, Option.map_some, Option.map_some, same]

theorem priorities (h : Lists facts places items) :
    items.map (·.priority) = List.range items.length := by
  refine List.ext_getElem? fun k => ?_
  rw [List.getElem?_map]
  cases he : places[k]? with
  | none =>
    have behind : items.length ≤ k := by simpa [h.length] using he
    rw [List.getElem?_eq_none behind, List.getElem?_eq_none (by simpa using behind), Option.map_none]
  | some e =>
    obtain ⟨c, -, -, hk⟩ := h.item he
    rw [hk, Option.map_some, List.getElem?_range (List.getElem?_eq_some_iff.1 hk).1]

theorem nodup (h : Lists facts places items) : (items.map (·.label)).Nodup := by
  rw [h.labels]
  refine List.pairwise_map.2 (h.ordered.imp_of_mem fun {d e} hd he before => ?_)
  have earlier := (h.mem_iff d.1 d.2).1 hd
  exact ((h.mem_iff e.1 e.2).1 he).fresh d.1 before d.2 earlier.here earlier.singular

/-- Facts before it that have no singular phrase do not keep a fact out. -/
theorem not_hidden (h : Lists facts places items) {before behind : List PropertyFact} {f : PropertyFact}
    (eq : facts = before ++ f :: behind) (singular : f.singular.isSome)
    (bare : ∀ g ∈ before, label g = label f → g.singular = none) :
    ∃ c ∈ items, ∃ d, completionOf? f = some d ∧ c = { d with priority := c.priority } := by
  subst eq
  have offered : Offered (before ++ f :: behind) before.length f := by
    refine ⟨by simp, singular, fun j hj g there offered same => ?_⟩
    rw [List.getElem?_append_left hj] at there
    rw [bare g (List.mem_of_getElem? there) same] at offered
    cases offered
  obtain ⟨k, hk⟩ := List.mem_iff_getElem?.1 ((h.mem_iff _ _).2 offered)
  obtain ⟨d, hd, -, there⟩ := h.item hk
  exact ⟨_, List.mem_of_getElem? there, d, hd, rfl⟩

end Lists

theorem completions_of_markedType {p : Prediction} {ix : Index} {ty : Ty} (h : p.markedType ix = some (.ok ty)) :
    (∃ places, Lists (ty.properties ix) places (p.completions ix)) ∧
    ((p.completions ix).map (·.label)).Nodup ∧
    (p.completions ix).map (·.priority) = List.range (p.completions ix).length ∧
    ∀ before f behind, ty.properties ix = before ++ f :: behind → f.singular.isSome →
      (∀ g ∈ before, label g = label f → g.singular = none) →
      ∃ c ∈ p.completions ix, ∃ d, completionOf? f = some d ∧ c = { d with priority := c.priority } := by
  have eq : p.completions ix = completionsOf (ty.properties ix) := by rw [Prediction.completions, h]
  rw [eq]
  obtain ⟨places, lists⟩ := exists_lists (ty.properties ix)
  exact ⟨⟨places, lists⟩, lists.nodup, lists.priorities, fun before f behind eq => lists.not_hidden eq⟩

/-- The phrase of the nearer type has only a plural under `size`, so the inherited one is offered. -/
theorem completions_of_markedType_folder :
    let fact (key : String) (singular owner : Option String) (result : String) : PropertyFact :=
      ⟨key, none, singular, some "them", owner, result, .empty, none⟩
    let near := fact "size of <folder>: integer" none (some "folder") "integer"
    let name := fact "name of <folder>: string" (some "name") (some "folder") "string"
    let far := fact "size of <object>: integer" (some "size") (some "object") "integer"
    let hidden := fact "name of <object>: string" (some "name") (some "object") "string"
    let folder := fact "folder: folder" (some "folder") none "folder"
    let ix := Index.build ⟨.ofList [("folder", ⟨"folder", some "object", .empty⟩)],
      .ofList ([near, name, far, hidden, folder].map fun f => (f.key, f))⟩ .everything
    let p := predict .standard " of folder".toList 0
    p.markedType ix = some (.ok (.named "folder")) ∧
      (Ty.named "folder").properties ix = [near, name, far, hidden] ∧
      (∃ places, Lists [near, name, far, hidden] places (p.completions ix)) ∧
      ((p.completions ix).map (·.label)).Nodup ∧
      (p.completions ix).map (·.priority) = List.range (p.completions ix).length ∧
      ∃ c ∈ p.completions ix, ∃ d, completionOf? far = some d ∧ c = { d with priority := c.priority } := by
  intro fact near name far hidden folder ix p
  have marked : p.markedType ix = some (.ok (.named "folder")) := by
    have named : (p.markedType ix).map (Except.map Ty.name?) = some (.ok (some "folder")) := by decide +kernel
    rcases eq : p.markedType ix with _ | _ | name | _ | _ <;> simp_all [Except.map, Ty.name?]
  have facts : (Ty.named "folder").properties ix = [near, name, far, hidden] := by decide +kernel
  obtain ⟨lists, labels, priorities, kept⟩ := completions_of_markedType marked
  exact ⟨marked, facts, facts ▸ lists, labels, priorities,
    kept [near, name] far [hidden] facts (by decide) (by decide +kernel)⟩

end InventoryQuery.Cursor
