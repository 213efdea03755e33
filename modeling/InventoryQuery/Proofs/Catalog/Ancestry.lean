import Mathlib.Data.List.Nodup
import Mathlib.Data.Nat.Find
import Mathlib.Logic.Function.Iterate
import InventoryQuery.Proofs.Catalog.Singular

/-! Inheritance. The walk from a type to its parents stops at a root or at the first type that comes
again, and behind that the sequence of parents brings nothing new. So a lookup along the walk finds
what the sequence, which never ends, has first. -/

namespace InventoryQuery

/-- The values of a sequence, each once, in the order in which they first come. -/
structure FirstOccurrences {α : Type} (seq : Nat → α) (l : List α) : Prop where
  mem_iff : ∀ a, a ∈ l ↔ ∃ n, seq n = a
  ordered : l.Pairwise fun a b => ∃ n, seq n = a ∧ ∀ k ≤ n, seq k ≠ b

namespace FirstOccurrences

variable {α β : Type} {seq : Nat → α} {l : List α}

theorem nodup (h : FirstOccurrences seq l) : l.Nodup := by
  refine h.ordered.imp ?_
  rintro a b ⟨n, rfl, fresh⟩
  exact fresh n (Nat.le_refl n)

/-- A beginning of the sequence without repetition is enough if nothing else comes. -/
theorem of_beginning {m : Nat} (distinct : ((List.range m).map seq).Nodup)
    (complete : ∀ n, seq n ∈ (List.range m).map seq) : FirstOccurrences seq ((List.range m).map seq) := by
  constructor
  · intro a
    constructor
    · intro ha
      obtain ⟨n, -, rfl⟩ := List.mem_map.1 ha
      exact ⟨n, rfl⟩
    · rintro ⟨n, rfl⟩
      exact complete n
  · rw [List.pairwise_map]
    refine List.pairwise_lt_range.imp_of_mem fun {i j} _ hj less => ⟨i, rfl, fun k hk same => ?_⟩
    have hm := List.mem_range.1 hj
    have := List.inj_on_of_nodup_map distinct (List.mem_range.2 (by omega)) hj same
    omega

/-- What a search in the list finds stands first in the sequence. -/
theorem first_of_findSome? (h : FirstOccurrences seq l) {g : α → Option β} {b : β}
    (found : l.findSome? g = some b) : ∃ n, g (seq n) = some b ∧ ∀ k < n, g (seq k) = none := by
  classical
  obtain ⟨before, a, behind, rfl, found, passed⟩ := List.findSome?_eq_some_iff.1 found
  have comes := (h.mem_iff a).1 (by simp)
  refine ⟨Nat.find comes, by rw [Nat.find_spec comes, found], fun k hk => ?_⟩
  -- what comes before `a` in the sequence stands before it in the list
  have listed : seq k ∈ before ++ a :: behind := (h.mem_iff _).2 ⟨k, rfl⟩
  rcases List.mem_append.1 listed with early | late
  · exact passed _ early
  · rcases List.mem_cons.1 late with same | late
    · exact absurd same (Nat.find_min comes hk)
    · obtain ⟨n, hn, fresh⟩ := (List.pairwise_cons.1 (List.pairwise_append.1 h.ordered).2.1).1 _ late
      have least := Nat.find_min' comes hn
      exact absurd rfl (fresh k (by omega))

theorem findSome?_eq_none_iff (h : FirstOccurrences seq l) {g : α → Option β} :
    l.findSome? g = none ↔ ∀ n, g (seq n) = none := by
  rw [List.findSome?_eq_none_iff]
  constructor
  · intro absent n
    exact absent _ ((h.mem_iff _).2 ⟨n, rfl⟩)
  · intro absent a ha
    obtain ⟨n, rfl⟩ := (h.mem_iff a).1 ha
    exact absent n

theorem findSome?_eq_some_iff (h : FirstOccurrences seq l) {g : α → Option β} {b : β} :
    l.findSome? g = some b ↔ ∃ n, g (seq n) = some b ∧ ∀ k < n, g (seq k) = none := by
  refine ⟨h.first_of_findSome?, ?_⟩
  rintro ⟨n, hn, before⟩
  rcases hf : l.findSome? g with _ | b'
  · rw [h.findSome?_eq_none_iff.1 hf n] at hn
    cases hn
  · obtain ⟨m, hm, before'⟩ := h.first_of_findSome? hf
    have same : m = n := by
      refine Nat.le_antisymm (Nat.not_lt.1 fun less => ?_) (Nat.not_lt.1 fun less => ?_)
      · rw [before' n less] at hn
        cases hn
      · rw [before m less] at hm
        cases hm
    rw [← hn, ← hm, same]

end FirstOccurrences

namespace Index

variable {ix : Index} {seen rest : List String} {type : String}

/-- The walk from a type on to the ancestors that were not seen, with no bound on its steps. -/
inductive Walks (ix : Index) : List String → String → List String → Prop
  | root {seen : List String} {type : String} : ix.parent type = type → Walks ix seen type []
  | again {seen : List String} {type : String} : ix.parent type ≠ type → ix.parent type ∈ seen → Walks ix seen type []
  | up {seen rest : List String} {type : String} : ix.parent type ≠ type → ix.parent type ∉ seen →
    Walks ix (ix.parent type :: seen) (ix.parent type) rest → Walks ix seen type (ix.parent type :: rest)

def unseenParents (ix : Index) (seen : List String) : List String := ix.parents.values.filter (· ∉ seen)

theorem unseenParents_cons (ix : Index) (type : String) (seen : List String) :
    ix.unseenParents (type :: seen) = (ix.unseenParents seen).filter (· ≠ type) := by
  rw [unseenParents, unseenParents, List.filter_filter]
  refine List.filter_congr fun a _ => ?_
  simp [not_or]

theorem parent_mem_values (h : ix.parent type ≠ type) : ix.parent type ∈ ix.parents.values := by
  unfold parent OrderedMap.get? at h ⊢
  rcases found : ix.parents.entries.find? (·.1 = type) with _ | e
  · simp [found] at h
  · rw [found]
    exact List.mem_map_of_mem (List.mem_of_find?_eq_some found)

/-- Every step uses up a declared parent, so the walk ends before the bound on its steps does. -/
theorem walks_ancestorsFrom {n : Nat} (here : type ∈ seen) (enough : (ix.unseenParents seen).length < n) :
    ix.Walks seen type (ix.ancestorsFrom n seen type) := by
  induction n generalizing seen type with
  | zero => omega
  | succ n ih =>
    rw [ancestorsFrom]
    by_cases top : ix.parent type = type
    · rw [if_pos (by simpa [top] using here)]
      exact .root top
    · by_cases known : ix.parent type ∈ seen
      · rw [if_pos (by simpa using known)]
        exact .again top known
      · rw [if_neg (by simpa using known)]
        refine .up top known (ih List.mem_cons_self ?_)
        have unseen : ix.parent type ∈ ix.unseenParents seen :=
          List.mem_filter.2 ⟨parent_mem_values top, by simpa using known⟩
        have fewer : (ix.unseenParents (ix.parent type :: seen)).length < (ix.unseenParents seen).length := by
          rw [unseenParents_cons]
          exact List.length_filter_lt_length_iff_exists.2 ⟨_, unseen, by simp⟩
        omega

theorem walks_ancestry (ix : Index) (type : String) : ∃ rest, ix.ancestry type = type :: rest ∧ ix.Walks [type] type rest := by
  refine ⟨_, rfl, walks_ancestorsFrom (List.mem_singleton.2 rfl) ?_⟩
  have declared : ix.parents.values.length = ix.parents.size := List.length_map _
  have fewer : (ix.unseenParents [type]).length ≤ ix.parents.values.length := List.length_filter_le _ _
  omega

theorem Walks.fresh (h : ix.Walks seen type rest) : rest.Nodup ∧ ∀ a ∈ rest, a ∉ seen := by
  induction h with
  | root | again => exact ⟨.nil, nofun⟩
  | up _ new _ ih =>
    obtain ⟨nodup, unseen⟩ := ih
    refine ⟨List.nodup_cons.2 ⟨fun again => unseen _ again List.mem_cons_self, nodup⟩, ?_⟩
    intro a ha
    rcases List.mem_cons.1 ha with rfl | ha
    · exact new
    · exact fun known => unseen a ha (List.mem_cons_of_mem _ known)

theorem Walks.eq_iterates (h : ix.Walks seen type rest) :
    rest = (List.range rest.length).map fun i => ix.parent^[i + 1] type := by
  induction h with
  | root | again => rfl
  | up _ _ _ ih =>
    rw [List.length_cons, List.range_succ_eq_map, List.map_cons, List.map_map]
    exact congrArg _ ih

/-- The parent of whatever was met was met as well. -/
theorem Walks.closed (h : ix.Walks seen type rest) (here : type ∈ seen) :
    ∀ a ∈ type :: rest, ix.parent a ∈ seen ∨ ix.parent a ∈ rest := by
  induction h with
  | root top =>
    intro a ha
    rw [List.mem_singleton.1 ha, top]
    exact .inl here
  | again _ known =>
    intro a ha
    rw [List.mem_singleton.1 ha]
    exact .inl known
  | up _ _ _ ih =>
    intro a ha
    rcases List.mem_cons.1 ha with rfl | ha
    · exact .inr List.mem_cons_self
    · rcases ih List.mem_cons_self a ha with known | later
      · rcases List.mem_cons.1 known with same | known
        · rw [same]
          exact .inr List.mem_cons_self
        · exact .inl known
      · exact .inr (List.mem_cons_of_mem _ later)

theorem Walks.firstOccurrences (h : ix.Walks [type] type rest) :
    FirstOccurrences (fun n => ix.parent^[n] type) (type :: rest) := by
  have beginning : type :: rest = (List.range (rest.length + 1)).map fun n => ix.parent^[n] type := by
    rw [List.range_succ_eq_map, List.map_cons, List.map_map]
    exact congrArg _ h.eq_iterates
  have distinct : (type :: rest).Nodup :=
    List.nodup_cons.2 ⟨fun again => h.fresh.2 type again (List.mem_singleton.2 rfl), h.fresh.1⟩
  have complete : ∀ n, ix.parent^[n] type ∈ type :: rest := by
    intro n
    induction n with
    | zero => exact List.mem_cons_self
    | succ n ih =>
      rw [Function.iterate_succ_apply']
      rcases h.closed (List.mem_singleton.2 rfl) _ ih with start | later
      · exact List.mem_cons.2 (.inl (List.mem_singleton.1 start))
      · exact List.mem_cons_of_mem _ later
  rw [beginning] at distinct complete ⊢
  exact .of_beginning distinct complete

theorem ancestry_firstOccurrences (ix : Index) (type : String) :
    FirstOccurrences (fun n => ix.parent^[n] type) (ix.ancestry type) := by
  obtain ⟨rest, listed, walks⟩ := ix.walks_ancestry type
  rw [listed]
  exact walks.firstOccurrences

/-- The ancestors of a type are its parents without an end, each once and in order, however the
parents are declared; the walk that lists them needs no bound. A property is that of the first of
them that has it, and there is none only if none of them has it. -/
theorem property_of_nearest (ix : Index) :
    (∀ type, ∃ rest, ix.ancestry type = type :: rest ∧ ix.Walks [type] type rest) ∧
    (∀ type, FirstOccurrences (fun n => ix.parent^[n] type) (ix.ancestry type)) ∧
    ∀ owner name params,
      let stored (n : Nat) := ix.get? (lookupKey (ix.singular name) (params.map ix.singular)
        (some (ix.parent^[n] (ix.singular owner))))
      ((∃ f, ix.property owner name params = .ok f) ↔ ∃ n, (stored n).isSome) ∧
      (∀ f, ix.property owner name params = .ok f ↔ ∃ n, stored n = some f ∧ ∀ k < n, stored k = none) ∧
      (∀ e, ix.property owner name params = .error e ↔
        (∀ n, stored n = none) ∧ e = .noProperty owner (ix.singular name) (params.map ix.singular)) := by
  refine ⟨ix.walks_ancestry, ix.ancestry_firstOccurrences, fun owner name params => ?_⟩
  intro stored
  have lists := ix.ancestry_firstOccurrences (ix.singular owner)
  have found (f : PropertyFact) : ix.property owner name params = .ok f ↔
      ∃ n, stored n = some f ∧ ∀ k < n, stored k = none := by
    rw [property_eq_ok_iff]
    exact lists.findSome?_eq_some_iff
  have failed (e : LookupError) : ix.property owner name params = .error e ↔
      (∀ n, stored n = none) ∧ e = .noProperty owner (ix.singular name) (params.map ix.singular) := by
    rw [property_eq_error_iff]
    exact and_congr_left fun _ => lists.findSome?_eq_none_iff
  refine ⟨⟨?_, ?_⟩, found, failed⟩
  · rintro ⟨f, hf⟩
    obtain ⟨n, hn, -⟩ := (found f).1 hf
    exact ⟨n, by rw [hn]; rfl⟩
  · rintro ⟨n, hn⟩
    rcases result : ix.property owner name params with e | f
    · rw [((failed e).1 result).1 n] at hn
      cases hn
    · exact ⟨f, rfl⟩

/-- A cycle that the owner is not on itself, and a type that is its own parent. -/
theorem property_of_nearest_cycle :
    let parent (name parent : String) : String × TypeFact := (name, ⟨name, some parent, .empty⟩)
    let x : PropertyFact := ⟨"x of <c>: y", none, none, none, some "c", "y", .empty, none⟩
    let c : Catalog := ⟨.ofList [parent "a" "b", parent "b" "c", parent "c" "b", parent "d" "d"], .ofList [("x", x)]⟩
    let ix := build c .everything
    ix.ancestry "a" = ["a", "b", "c"] ∧ ix.ancestry "d" = ["d"] ∧
      ix.property "a" "x" none = .ok x ∧ ix.property "d" "x" none = .error (.noProperty "d" "x" none) := by
  intro parent x c ix
  obtain ⟨-, -, nearest⟩ := property_of_nearest ix
  have top : ix.parent "d" = "d" := (parent_build c .everything "d").trans (by decide +kernel)
  refine ⟨by decide +kernel, by decide +kernel, ((nearest "a" "x" none).2.1 x).2 ⟨2, ?_, ?_⟩,
    ((nearest "d" "x" none).2.2 _).2 ⟨fun n => ?_, rfl⟩⟩
  · decide +kernel
  · decide +kernel
  · have nothing : ix.get? (lookupKey (ix.singular "x") none (some "d")) = none := by decide +kernel
    have name : ix.singular "d" = "d" := by decide +kernel
    beta_reduce
    rw [name, Function.iterate_fixed top]
    exact nothing

end Index

end InventoryQuery
