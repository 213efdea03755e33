import Mathlib.Data.List.Dedup
import InventoryQuery.Proofs.Catalog.Ancestry

/-! What can be read from an index, told from the catalog and the filter alone. A type lists the facts
of its ancestors, and since no ancestor comes twice and every fact has one owner, no entry of the
catalog is listed twice. -/

namespace InventoryQuery

namespace Catalog

variable (c : Catalog) (filter : Filter)

def entriesOf (owner : Option String) : List (String × PropertyFact) :=
  c.properties.entries.filter fun e => e.2.owner = owner ∧ e.2.isProperty ∧ filter.admits e.2.availability

theorem map_entriesOf (owner : Option String) :
    (c.entriesOf filter owner).map Prod.snd = (c.indexed filter).filter (·.owner = owner) := by
  rw [entriesOf, indexed, admitted, OrderedMap.values, List.filter_filter, List.filter_filter, List.filter_map]
  refine congrArg _ (List.filter_congr fun e _ => ?_)
  simp [Bool.and_assoc]

theorem entries_nodup : c.properties.entries.Nodup := List.Nodup.of_map _ c.properties.distinct

/-- What is under one owner is under no other. -/
theorem flatMap_entriesOf_nodup {owners : List String} (distinct : owners.Nodup) :
    (owners.flatMap fun owner => c.entriesOf filter (some owner)).Nodup := by
  rw [List.nodup_flatMap]
  constructor
  · intro owner _
    exact c.entries_nodup.filter _
  · refine distinct.imp fun {a b} apart => List.disjoint_left.2 fun e ha hb => ?_
    have first := (List.mem_filter.1 ha).2
    have second := (List.mem_filter.1 hb).2
    simp only [decide_eq_true_eq] at first second
    exact apart (Option.some.inj (first.1.symm.trans second.1))

end Catalog

namespace Index

variable (c : Catalog) (filter : Filter)

theorem allProperties_world : (build c filter).allProperties worldType = (c.indexed filter).filter (·.owner = none) := by
  rw [allProperties, if_pos rfl, ownedBy_build]

theorem allProperties_type {type : String} (h : type ≠ worldType) :
    (build c filter).allProperties type = ((build c filter).ancestry ((build c filter).singular type)).flatMap
      fun t => (c.indexed filter).filter (·.owner = some t) := by
  rw [allProperties, if_neg h]
  exact List.flatMap_congr fun t _ => ownedBy_build c filter (some t)

theorem exists_entries {type : String} (h : type ≠ worldType) :
    ∃ entries : List (String × PropertyFact), entries.Nodup ∧ entries ⊆ c.properties.entries ∧
      (build c filter).allProperties type = entries.map Prod.snd := by
  have lists := (build c filter).ancestry_firstOccurrences ((build c filter).singular type)
  refine ⟨_, c.flatMap_entriesOf_nodup filter lists.nodup, ?_, ?_⟩
  · intro e he
    obtain ⟨t, -, he⟩ := List.mem_flatMap.1 he
    exact List.mem_of_mem_filter he
  · rw [allProperties_type c filter h, List.map_flatMap]
    exact List.flatMap_congr fun t _ => (c.map_entriesOf filter (some t)).symm

theorem propertyCount_build :
    (build c filter).propertyCount = ((c.indexed filter).map PropertyFact.indexKey).dedup.length := by
  have distinct : (build c filter).keys.keys.Nodup := (build c filter).keys.distinct
  rw [propertyCount_eq]
  refine ((List.perm_ext_iff_of_nodup distinct (List.nodup_dedup _)).2 fun key => ?_).length_eq
  rw [List.mem_dedup, List.mem_map]
  exact mem_keys_build c filter key

/-- An index holds the facts of the catalog that are properties and admitted, and nothing else: the
world lists those without an owner and a type those of its ancestors, no entry twice; under a key
stands the last fact that has it; and what is counted are the keys. -/
theorem index_of_catalog (c : Catalog) (filter : Filter) :
    let facts := c.indexed filter
    let ix := build c filter
    ix.allProperties worldType = facts.filter (·.owner = none) ∧
    (∀ type, type ≠ worldType →
      ix.allProperties type =
        (ix.ancestry (ix.singular type)).flatMap (fun t => facts.filter (·.owner = some t)) ∧
      (∀ f ∈ ix.allProperties type, f.isCreation = false) ∧
      ∃ entries : List (String × PropertyFact), entries.Nodup ∧ entries ⊆ c.properties.entries ∧
        ix.allProperties type = entries.map Prod.snd) ∧
    (∀ key, ix.get? key = (facts.filter (·.indexKey = key)).getLast?) ∧
    ix.propertyCount = (facts.map PropertyFact.indexKey).dedup.length := by
  intro facts ix
  refine ⟨allProperties_world c filter, fun type h => ?_, get?_build c filter, propertyCount_build c filter⟩
  have listed := allProperties_type c filter h
  refine ⟨listed, fun f hf => ?_, exists_entries c filter h⟩
  rw [listed] at hf
  obtain ⟨t, -, hf⟩ := List.mem_flatMap.1 hf
  have owner : f.owner = some t := by simpa using (List.mem_filter.1 hf).2
  rw [PropertyFact.isCreation, owner, Option.isNone_some]

/-- Parents in a cycle, two facts under one key, a fact that is not admitted, and a cast. -/
theorem index_of_catalog_cyclic :
    let on (platform : String) : Availability := .ofList [("1", [platform])]
    let fact (key : String) (owner : Option String) (platform : String) : PropertyFact :=
      { PropertyFact.bare with key := key, owner := owner, availability := on platform }
    let own := fact "y of <b>: s" (some "b") "win"
    let inherited := fact "x of <a>: s" (some "a") "win"
    let again := fact "x of <a>: t" (some "a") "win"
    let c : Catalog := ⟨.ofList [("a", ⟨"a", some "b", on "win"⟩), ("b", ⟨"b", some "a", on "win"⟩)],
      .ofList [("1", inherited), ("2", fact "z: s" none "win"), ("3", fact "w of <b>: s" (some "b") "mac"),
        ("4", { fact "b as s: s" (some "b") "win" with kind := some "cast" }), ("5", own), ("6", again)]⟩
    let filter : Filter := ⟨none, some "win"⟩
    let ix := build c filter
    "b" ≠ worldType ∧ ix.allProperties "b" = [own, inherited, again] ∧
      ix.allProperties "b" =
        (ix.ancestry (ix.singular "b")).flatMap (fun t => (c.indexed filter).filter (·.owner = some t)) ∧
      again ∈ ix.allProperties "b" ∧ again.isCreation = false ∧
      ∃ entries : List (String × PropertyFact), entries.Nodup ∧ entries ⊆ c.properties.entries ∧
        ix.allProperties "b" = entries.map Prod.snd := by
  intro on fact own inherited again c filter ix
  have apart : "b" ≠ worldType := by decide
  have listed : ix.allProperties "b" = [own, inherited, again] := by decide +kernel
  have last : again ∈ ix.allProperties "b" := by
    rw [listed]
    simp
  obtain ⟨owners, creations, entries⟩ := (index_of_catalog c filter).2.1 "b" apart
  exact ⟨apart, listed, owners, last, creations again last, entries⟩

end Index

end InventoryQuery
