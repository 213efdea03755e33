import Mathlib.Data.List.Induction
import InventoryQuery.Catalog.Lookup

/-! What an index holds, told from the catalog and the filter. Only admitted facts are written, in
the order of the document: under a key stays the last fact that has it, under an owner all of its
facts, for a plural the singular that was given with it last, and for a type the parent that was
declared last. -/

namespace InventoryQuery

namespace OrderedMap

variable {κ α β : Type} [DecidableEq κ]

theorem get?_empty (k : κ) : (empty : OrderedMap κ α).get? k = none := rfl

theorem mem_keys_iff (m : OrderedMap κ α) (k : κ) : k ∈ m.keys ↔ (m.get? k).isSome := by
  simp [get?, keys, List.find?_isSome]

theorem get?_foldl_insert (m : OrderedMap κ α) (key : β → κ) (value : β → α) (bs : List β) (k : κ) :
    (bs.foldl (fun m b => m.insert (key b) (value b)) m).get? k =
      ((bs.filter (key · = k)).getLast?.map value).or (m.get? k) := by
  induction bs using List.reverseRecOn with
  | nil => rfl
  | append_singleton bs b ih =>
    rw [List.foldl_append, List.foldl_cons, List.foldl_nil, get?_insert, ih, List.filter_append]
    by_cases h : key b = k
    · simp [h]
    · simp [h, Ne.symm h]

theorem get?_foldl_append (m : OrderedMap κ (List β)) (key : β → κ) (bs : List β) (k : κ) :
    ((bs.foldl (fun m b => m.upsert (key b) fun found => found.getD [] ++ [b]) m).get? k).getD [] =
      (m.get? k).getD [] ++ bs.filter (key · = k) := by
  induction bs using List.reverseRecOn with
  | nil => simp
  | append_singleton bs b ih =>
    rw [List.foldl_append, List.foldl_cons, List.foldl_nil, get?_upsert, List.filter_append]
    by_cases h : key b = k
    · subst h
      simp [ih]
    · simp [h, Ne.symm h, ih]

end OrderedMap

def PropertyFact.inflection? (f : PropertyFact) : Option (String × String) :=
  f.plural.bind fun plural => f.singular.map fun singular => (plural, singular)

def TypeFact.ascent? (f : TypeFact) : Option (String × String) := f.parent.map fun parent => (f.name, parent)

namespace Catalog

def ascents (c : Catalog) (filter : Filter) : List (String × String) :=
  (c.types.values.filter fun f => filter.admits f.availability).filterMap TypeFact.ascent?

def admitted (c : Catalog) (filter : Filter) : List PropertyFact :=
  c.properties.values.filter fun f => filter.admits f.availability

def indexed (c : Catalog) (filter : Filter) : List PropertyFact := (c.admitted filter).filter PropertyFact.isProperty

/-- Operators and casts have plurals as well. -/
def inflections (c : Catalog) (filter : Filter) : List (String × String) :=
  (c.admitted filter).filterMap PropertyFact.inflection?

end Catalog

namespace Index

theorem addType_eq (ix : Index) (f : TypeFact) :
    ∃ platforms, ix.addType f =
      { ix with
        parents := (([f].filter fun f => ix.filter.admits f.availability).filterMap TypeFact.ascent?).foldl
          (fun m e => m.insert e.1 e.2) ix.parents
        platforms := platforms } := by
  refine ⟨(ix.listPlatforms f.availability).platforms, ?_⟩
  unfold addType
  dsimp only
  by_cases ha : ix.filter.admits f.availability
  · rcases hp : f.parent with _ | parent <;> simp [TypeFact.ascent?, listPlatforms, ha, hp]
  · simp [listPlatforms, ha]

/-- Types are not listed under keys or owners. -/
theorem foldl_addType (fs : List TypeFact) (ix : Index) :
    ∃ platforms, fs.foldl addType ix =
      { ix with
        parents := ((fs.filter fun f => ix.filter.admits f.availability).filterMap TypeFact.ascent?).foldl
          (fun m e => m.insert e.1 e.2) ix.parents
        platforms := platforms } := by
  induction fs generalizing ix with
  | nil => exact ⟨_, rfl⟩
  | cons f fs ih =>
    obtain ⟨platforms, first⟩ := addType_eq ix f
    obtain ⟨platforms', rest⟩ := ih (ix.addType f)
    refine ⟨platforms', ?_⟩
    have one : (f :: fs) = [f] ++ fs := rfl
    rw [List.foldl_cons, rest, first, one, List.filter_append, List.filterMap_append, List.foldl_append]

/-- The maps that lookups read, after facts that are admitted and those of them that are indexed. -/
def afterFacts (ix : Index) (admitted indexed : List PropertyFact) : Index :=
  { ix with
    keys := indexed.foldl (fun m f => m.insert f.indexKey f) ix.keys
    owned := indexed.foldl (fun m f => m.upsert f.owner fun facts => facts.getD [] ++ [f]) ix.owned
    singulars := (admitted.filterMap PropertyFact.inflection?).foldl (fun m e => m.insert e.1 e.2) ix.singulars }

theorem afterFacts_append (ix : Index) (as as' fs fs' : List PropertyFact) :
    ix.afterFacts (as ++ as') (fs ++ fs') = (ix.afterFacts as fs).afterFacts as' fs' := by
  simp only [afterFacts, List.foldl_append, List.filterMap_append]

theorem addSingular_eq (ix : Index) (f : PropertyFact) : ix.addSingular f = ix.afterFacts [f] [] := by
  rcases hs : f.singular with _ | singular <;> rcases hp : f.plural with _ | plural <;>
    simp [addSingular, afterFacts, PropertyFact.inflection?, hs, hp]

theorem addProperty_eq (ix : Index) (f : PropertyFact) :
    ∃ platforms, ix.addProperty f =
      { ix.afterFacts ([f].filter fun f => ix.filter.admits f.availability)
          (([f].filter fun f => ix.filter.admits f.availability).filter PropertyFact.isProperty) with
        platforms := platforms } := by
  refine ⟨(ix.listPlatforms f.availability).platforms, ?_⟩
  unfold addProperty
  simp only [addSingular_eq]
  by_cases ha : ix.filter.admits f.availability
  · by_cases hp : f.isProperty
    · simp [afterFacts, listPlatforms, file, ha, hp]
    · simp [afterFacts, listPlatforms, ha, hp]
  · simp [afterFacts, listPlatforms, ha]

theorem foldl_addProperty (fs : List PropertyFact) (ix : Index) :
    ∃ platforms, fs.foldl addProperty ix =
      { ix.afterFacts (fs.filter fun f => ix.filter.admits f.availability)
          ((fs.filter fun f => ix.filter.admits f.availability).filter PropertyFact.isProperty) with
        platforms := platforms } := by
  induction fs generalizing ix with
  | nil => exact ⟨_, rfl⟩
  | cons f fs ih =>
    obtain ⟨platforms, first⟩ := addProperty_eq ix f
    obtain ⟨platforms', rest⟩ := ih (ix.addProperty f)
    refine ⟨platforms', ?_⟩
    have one : (f :: fs) = [f] ++ fs := rfl
    rw [List.foldl_cons, rest, first, one, List.filter_append, List.filter_append, afterFacts_append]
    rfl

theorem build_eq (c : Catalog) (filter : Filter) :
    ∃ platforms, build c filter =
      { (bare filter).afterFacts (c.admitted filter) (c.indexed filter) with
        parents := (c.ascents filter).foldl (fun m e => m.insert e.1 e.2) .empty, platforms := platforms } := by
  obtain ⟨platforms, types⟩ := foldl_addType c.types.values (bare filter)
  obtain ⟨platforms', properties⟩ := foldl_addProperty c.properties.values (c.types.values.foldl addType (bare filter))
  refine ⟨platforms', ?_⟩
  rw [build, properties, types]
  rfl

theorem propertyCount_eq (ix : Index) : ix.propertyCount = ix.keys.keys.length := by
  rw [propertyCount, OrderedMap.size, OrderedMap.keys, List.length_map]

variable (c : Catalog) (filter : Filter)

theorem get?_build (key : String) :
    (build c filter).get? key = ((c.indexed filter).filter (·.indexKey = key)).getLast? := by
  obtain ⟨platforms, built⟩ := build_eq c filter
  have found := OrderedMap.get?_foldl_insert (.empty : OrderedMap String PropertyFact)
    PropertyFact.indexKey id (c.indexed filter) key
  rw [OrderedMap.get?_empty, Option.or_none, Option.map_id_apply] at found
  rw [get?, built]
  exact found

theorem ownedBy_build (owner : Option String) :
    (build c filter).ownedBy owner = (c.indexed filter).filter (·.owner = owner) := by
  obtain ⟨platforms, built⟩ := build_eq c filter
  have found := OrderedMap.get?_foldl_append (.empty : OrderedMap (Option String) (List PropertyFact))
    PropertyFact.owner (c.indexed filter) owner
  rw [OrderedMap.get?_empty, Option.getD_none, List.nil_append] at found
  rw [ownedBy, built]
  exact found

/-- The singular that was given last for this plural. -/
theorem get?_singulars_build (plural : String) :
    (build c filter).singulars.get? plural = ((c.inflections filter).filter (·.1 = plural)).getLast?.map Prod.snd := by
  obtain ⟨platforms, built⟩ := build_eq c filter
  have found := OrderedMap.get?_foldl_insert (.empty : OrderedMap String String)
    Prod.fst Prod.snd (c.inflections filter) plural
  rw [OrderedMap.get?_empty, Option.or_none] at found
  rw [built]
  exact found

/-- The parent that was declared last, and without one the type itself. -/
theorem parent_build (type : String) :
    (build c filter).parent type = (((c.ascents filter).filter (·.1 = type)).getLast?.map Prod.snd).getD type := by
  obtain ⟨platforms, built⟩ := build_eq c filter
  have found := OrderedMap.get?_foldl_insert (.empty : OrderedMap String String)
    Prod.fst Prod.snd (c.ascents filter) type
  rw [OrderedMap.get?_empty, Option.or_none] at found
  rw [parent, built]
  exact congrArg (·.getD type) found

theorem mem_keys_build (key : String) :
    key ∈ (build c filter).keys.keys ↔ ∃ f ∈ c.indexed filter, f.indexKey = key := by
  rw [OrderedMap.mem_keys_iff, ← get?, get?_build, List.getLast?_filter, List.find?_isSome]
  simp

end Index

end InventoryQuery
