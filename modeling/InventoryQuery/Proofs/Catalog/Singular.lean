import InventoryQuery.Catalog.Document
import InventoryQuery.Proofs.Catalog.Build

/-! Lookups read a phrase only through its singular, so a plural finds what its singular finds as
soon as the singular stands for itself. A catalog can give a singular a singular of its own, and the
name of the world is looked at before plurals are. -/

namespace InventoryQuery

/-- The singular that an admitted fact gives for the plural; the last one counts. -/
def Catalog.singularOf? (c : Catalog) (filter : Filter) (plural : String) : Option String :=
  ((c.inflections filter).filter (·.1 = plural)).getLast?.map Prod.snd

namespace Index

def Settled (ix : Index) (phrase : String) : Prop := ix.singular (ix.singular phrase) = ix.singular phrase

theorem singular_build (c : Catalog) (filter : Filter) (phrase : String) :
    (build c filter).singular phrase = (c.singularOf? filter phrase).getD phrase := by
  rw [singular, get?_singulars_build]
  rfl

theorem settled_build_iff (c : Catalog) (filter : Filter) (phrase : String) :
    (build c filter).Settled phrase ↔
      ∀ s ∈ c.singularOf? filter phrase, ∀ r ∈ c.singularOf? filter s, r = s := by
  unfold Settled
  simp only [singular_build]
  rcases first : c.singularOf? filter phrase with _ | s
  · simp [first]
  · rcases second : c.singularOf? filter s with _ | r
    · simp [second]
    · simp [second]

section lookups

variable (ix : Index) (owner name : String) (params : Option String)

theorem property_eq_ok_iff (f : PropertyFact) :
    ix.property owner name params = .ok f ↔
      (ix.ancestry (ix.singular owner)).findSome? (fun type =>
        ix.get? (lookupKey (ix.singular name) (params.map ix.singular) (some type))) = some f := by
  unfold property
  dsimp only
  split
  · rename_i g found
    rw [found, Except.ok.injEq, Option.some.injEq]
  · rename_i none
    rw [none]
    simp

theorem property_eq_error_iff (e : LookupError) :
    ix.property owner name params = .error e ↔
      (ix.ancestry (ix.singular owner)).findSome? (fun type =>
        ix.get? (lookupKey (ix.singular name) (params.map ix.singular) (some type))) = none ∧
      e = .noProperty owner (ix.singular name) (params.map ix.singular) := by
  unfold property
  dsimp only
  split
  · rename_i g found
    simp [found]
  · rename_i none
    rw [none, Except.error.injEq, eq_comm]
    simp

theorem creation_eq_ok_iff (f : PropertyFact) :
    ix.creation name params = .ok f ↔
      ix.get? (lookupKey (ix.singular name) (params.map ix.singular) none) = some f := by
  unfold creation
  dsimp only
  split
  · rename_i g found
    rw [found, Except.ok.injEq, Option.some.injEq]
  · rename_i none
    rw [none]
    simp

end lookups

section congr

variable (ix : Index) {owner owner' name name' : String} {params params' : Option String}

theorem property_congr (ho : ix.singular owner = ix.singular owner') (hn : ix.singular name = ix.singular name')
    (hp : params.map ix.singular = params'.map ix.singular) (f : PropertyFact) :
    ix.property owner name params = .ok f ↔ ix.property owner' name' params' = .ok f := by
  rw [property_eq_ok_iff, property_eq_ok_iff, ho, hn, hp]

theorem creation_congr (hn : ix.singular name = ix.singular name')
    (hp : params.map ix.singular = params'.map ix.singular) :
    ix.creation name params = ix.creation name' params' := by
  unfold creation
  rw [hn, hp]

/-- Only the world is known by its name as it is written. -/
theorem allProperties_congr (ho : ix.singular owner = ix.singular owner') (hw : owner = worldType ↔ owner' = worldType) :
    ix.allProperties owner = ix.allProperties owner' := by
  unfold allProperties
  by_cases h : owner = worldType
  · rw [if_pos h, if_pos (hw.1 h)]
  · rw [if_neg h, if_neg (mt hw.2 h), ho]

theorem map_singular_settled (hp : ∀ p ∈ params, ix.Settled p) :
    params.map ix.singular = (params.map ix.singular).map ix.singular := by
  rcases params with _ | p
  · rfl
  · exact congrArg some (hp p rfl).symm

end congr

theorem lookups_of_singular (c : Catalog) (filter : Filter) :
    let ix := build c filter
    (∀ phrase, ix.singular (ix.singular phrase) = ix.singular phrase ↔
      ∀ s ∈ c.singularOf? filter phrase, ∀ r ∈ c.singularOf? filter s, r = s) ∧
    (∀ owner name params, ix.Settled owner → ix.Settled name → (∀ p ∈ params, ix.Settled p) →
      ∀ f, ix.property owner name params = .ok f ↔
        ix.property (ix.singular owner) (ix.singular name) (params.map ix.singular) = .ok f) ∧
    (∀ name params, ix.Settled name → (∀ p ∈ params, ix.Settled p) →
      ix.creation name params = ix.creation (ix.singular name) (params.map ix.singular)) ∧
    ∀ owner, ix.Settled owner → (owner = worldType ↔ ix.singular owner = worldType) →
      ix.allProperties owner = ix.allProperties (ix.singular owner) := by
  intro ix
  refine ⟨settled_build_iff c filter, ?_, ?_, ?_⟩
  · intro owner name params ho hn hp f
    exact ix.property_congr ho.symm hn.symm (ix.map_singular_settled hp) f
  · intro name params hn hp
    exact ix.creation_congr hn.symm (ix.map_singular_settled hp)
  · intro owner ho hw
    exact ix.allProperties_congr ho.symm hw

theorem lookups_of_singular_files :
    let file : PropertyFact :=
      { PropertyFact.bare with key := "file: file", singular := some "file", plural := some "files", resultType := "file" }
    let ix := build ⟨.empty, .ofList [("file: file", file)]⟩ .everything
    ix.Settled "files" ∧ ix.singular "files" = "file" ∧
      (∀ f, ix.property "files" "files" none = .ok f ↔ ix.property "file" "file" none = .ok f) ∧
      ix.creation "files" none = ix.creation "file" none ∧ ix.allProperties "files" = ix.allProperties "file" := by
  intro file ix
  have one : ix.singular "files" = "file" := by decide +kernel
  have settled : ix.Settled "files" := by unfold Settled; decide +kernel
  have law := lookups_of_singular ⟨.empty, .ofList [("file: file", file)]⟩ .everything
  have property := law.2.1 "files" "files" none settled settled nofun
  have creation := law.2.2.1 "files" none settled nofun
  have all := law.2.2.2 "files" settled (by decide +kernel)
  exact ⟨settled, one, one ▸ property, one ▸ creation, one ▸ all⟩

/-- Where the singular of one plural is the plural of another phrase, and where the world has a
plural. -/
theorem lookups_of_singular_apart :
    let fact (key plural singular : String) (owner : Option String) : PropertyFact :=
      { PropertyFact.bare with key := key, plural := some plural, singular := some singular, owner := owner }
    let chained := build ⟨.empty, .ofList
      [("b: x", fact "b: x" "a" "b" none), ("c: y", fact "c: y" "b" "c" none)]⟩ .everything
    let worlds := build ⟨.empty, .ofList
      [("b: x", fact "b: x" "worlds" "world" none), ("c of <world>: y", fact "c of <world>: y" "d" "c" (some "world"))]⟩
      .everything
    chained.singular "a" = "b" ∧ chained.singular (chained.singular "a") = "c" ∧
      (chained.creation "a" none).map PropertyFact.key = .ok "b: x" ∧
      (chained.creation (chained.singular "a") none).map PropertyFact.key = .ok "c: y" ∧
    worlds.singular "worlds" = "world" ∧ worlds.singular "world" = "world" ∧
      (worlds.allProperties "worlds").map PropertyFact.key = ["c of <world>: y"] ∧
      (worlds.allProperties (worlds.singular "worlds")).map PropertyFact.key = ["b: x"] := by
  decide +kernel

end Index

end InventoryQuery
