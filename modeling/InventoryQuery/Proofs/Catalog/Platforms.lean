import InventoryQuery.Catalog.Document
import InventoryQuery.Proofs.Catalog.Build

/-! The list of platforms. It is written by every fact, admitted or not, so it is read off the catalog
with no filter: each platform stands where the catalog first names it, and under it each version
where it first comes together with it. -/

namespace InventoryQuery

/-- What comes at the end of a list is kept if it is new. -/
theorem eraseDups_concat {α : Type} [BEq α] [LawfulBEq α] (as : List α) (b : α) :
    (as ++ [b]).eraseDups = if b ∈ as then as.eraseDups else as.eraseDups ++ [b] := by
  rw [List.eraseDups_append]
  by_cases h : b ∈ as <;> simp [List.removeAll, h, List.eraseDups_cons]

theorem nodup_eraseDups {α : Type} [BEq α] [LawfulBEq α] (as : List α) : as.eraseDups.Nodup := by
  induction as using List.reverseRecOn with
  | nil => simp
  | append_singleton as b ih =>
    rw [eraseDups_concat]
    split
    · exact ih
    · rename_i new
      exact List.nodup_append.2 ⟨ih, by simp, fun a ha c hc => by
        rintro rfl
        exact new ((List.mem_singleton.1 hc) ▸ List.mem_eraseDups.1 ha)⟩

namespace Availability

def Names (a : Availability) (version platform : String) : Prop :=
  ∃ platforms, (version, platforms) ∈ a.entries ∧ platform ∈ platforms

def mentions (a : Availability) : List (String × String) := a.entries.flatMap fun e => e.2.map fun platform => (platform, e.1)

theorem mem_mentions_iff {a : Availability} {version platform : String} :
    (platform, version) ∈ a.mentions ↔ a.Names version platform := by
  simp only [mentions, Names, List.mem_flatMap, List.mem_map, Prod.mk.injEq]
  constructor
  · rintro ⟨⟨_, platforms⟩, entry, _, named, rfl, rfl⟩
    exact ⟨platforms, entry, named⟩
  · rintro ⟨platforms, entry, named⟩
    exact ⟨_, entry, platform, named, rfl, rfl⟩

end Availability

namespace Catalog

variable (c : Catalog)

def mentions : List (String × String) :=
  c.types.values.flatMap (·.availability.mentions) ++ c.properties.values.flatMap (·.availability.mentions)

def platformNames : List String := (c.mentions.map Prod.fst).eraseDups

def versionsOn (platform : String) : List String := ((c.mentions.filter (·.1 = platform)).map Prod.snd).eraseDups

theorem mem_versionsOn_iff {version platform : String} : version ∈ c.versionsOn platform ↔
    (∃ f ∈ c.types.values, f.availability.Names version platform) ∨
      ∃ f ∈ c.properties.values, f.availability.Names version platform := by
  have listed : version ∈ c.versionsOn platform ↔ (platform, version) ∈ c.mentions := by
    rw [versionsOn, List.mem_eraseDups]
    simp
  rw [listed, mentions, List.mem_append, List.mem_flatMap, List.mem_flatMap]
  simp only [Availability.mem_mentions_iff]

end Catalog

namespace Index

/-- Writes down that the platform is named with the version. -/
def note (platforms : OrderedMap String (List String)) (e : String × String) : OrderedMap String (List String) :=
  mention e.2 platforms e.1

theorem platforms_listPlatforms (ix : Index) (a : Availability) :
    (ix.listPlatforms a).platforms = a.mentions.foldl note ix.platforms := by
  simp only [listPlatforms, Availability.mentions, List.foldl_flatMap, List.foldl_map, note]

/-- A type is noted whether it is admitted or not. -/
theorem platforms_addType (ix : Index) (f : TypeFact) :
    (ix.addType f).platforms = f.availability.mentions.foldl note ix.platforms := by
  rw [← platforms_listPlatforms, addType]
  repeat' split
  all_goals rfl

theorem platforms_addSingular (ix : Index) (f : PropertyFact) : (ix.addSingular f).platforms = ix.platforms := by
  rw [addSingular_eq, afterFacts]

/-- So is a property, whatever its kind. -/
theorem platforms_addProperty (ix : Index) (f : PropertyFact) :
    (ix.addProperty f).platforms = f.availability.mentions.foldl note ix.platforms := by
  rw [← platforms_listPlatforms, addProperty]
  repeat' split
  all_goals simp only [file, platforms_addSingular]

/-- If one fact is noted, so is one after the other. -/
theorem platforms_foldl {α : Type} {add : Index → α → Index} {availability : α → Availability}
    (one : ∀ ix a, (add ix a).platforms = (availability a).mentions.foldl note ix.platforms) (as : List α) (ix : Index) :
    (as.foldl add ix).platforms = (as.flatMap fun a => (availability a).mentions).foldl note ix.platforms := by
  induction as generalizing ix with
  | nil => rfl
  | cons a as ih => rw [List.foldl_cons, ih, one, List.flatMap_cons, List.foldl_append]

/-- The filter is gone. -/
theorem platforms_build (c : Catalog) (filter : Filter) : (build c filter).platforms = c.mentions.foldl note .empty := by
  rw [build, platforms_foldl platforms_addProperty, platforms_foldl platforms_addType, Catalog.mentions,
    List.foldl_append]
  rfl

theorem keys_foldl_note (es : List (String × String)) :
    (es.foldl note .empty).keys = (es.map Prod.fst).eraseDups := by
  induction es using List.reverseRecOn with
  | nil => rfl
  | append_singleton es e ih =>
    rw [List.foldl_append, List.foldl_cons, List.foldl_nil, note, mention, OrderedMap.keys_upsert, ih,
      List.map_append, List.map_cons, List.map_nil, eraseDups_concat]
    simp only [List.mem_eraseDups]

theorem get?_foldl_note (es : List (String × String)) (platform : String) :
    ((es.foldl note .empty).get? platform).getD [] = ((es.filter (·.1 = platform)).map Prod.snd).eraseDups := by
  induction es using List.reverseRecOn with
  | nil => rfl
  | append_singleton es e ih =>
    rw [List.foldl_append, List.foldl_cons, List.foldl_nil, note, mention, OrderedMap.get?_upsert, List.filter_append]
    by_cases h : e.1 = platform
    · subst h
      have one : [e].filter (·.1 = e.1) = [e] := by simp
      rw [if_pos rfl, Option.getD_some, ih, one, List.map_append, List.map_cons, List.map_nil, eraseDups_concat]
      simp only [List.contains_iff_mem, List.mem_eraseDups]
    · have other : [e].filter (·.1 = platform) = [] := by simp [h]
      rw [if_neg (Ne.symm h), ih, other, List.append_nil]

/-- The list of platforms is that of the catalog and no filter changes it. A version is listed under
a platform if a type or a property has the platform in that version, each version once; platforms and
versions keep the order in which the document first names them, the types before the properties. -/
theorem platforms_of_catalog (c : Catalog) :
    (∀ filter filter', (build c filter).platforms = (build c filter').platforms) ∧
    ∀ filter, let platforms := (build c filter).platforms
      (∀ platform version, version ∈ (platforms.get? platform).getD [] ↔
        (∃ f ∈ c.types.values, f.availability.Names version platform) ∨
          ∃ f ∈ c.properties.values, f.availability.Names version platform) ∧
      (∀ platform, ((platforms.get? platform).getD []).Nodup) ∧
      platforms.keys = c.platformNames ∧
      ∀ platform, (platforms.get? platform).getD [] = c.versionsOn platform := by
  refine ⟨fun filter filter' => by rw [platforms_build, platforms_build], fun filter => ?_⟩
  intro platforms
  have built : platforms = c.mentions.foldl note .empty := platforms_build c filter
  have versions (platform : String) : (platforms.get? platform).getD [] = c.versionsOn platform := by
    rw [built, get?_foldl_note, Catalog.versionsOn]
  refine ⟨fun platform version => ?_, fun platform => ?_, ?_, versions⟩
  · rw [versions, c.mem_versionsOn_iff]
  · rw [versions]
    exact nodup_eraseDups _
  · rw [built, keys_foldl_note, Catalog.platformNames]

/-- A type that is not admitted, a cast, and a version that comes again. -/
example :
    let on (entries : List (String × List String)) : Availability := .ofList entries
    let c : Catalog := ⟨.ofList [("a", ⟨"a", none, on [("2", ["mac", "win"])]⟩)],
      .ofList [("x", { PropertyFact.bare with kind := some "cast", availability := on [("1", ["win", "win"])] }),
        ("y", { PropertyFact.bare with availability := on [("1", []), ("2", ["linux", "win"])] })]⟩
    (build c ⟨none, some "linux"⟩).platforms.entries = [("mac", ["2"]), ("win", ["2", "1"]), ("linux", ["2"])] := by
  decide +kernel

end Index

end InventoryQuery
