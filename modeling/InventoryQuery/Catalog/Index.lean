import InventoryQuery.Catalog.Version

/-! The index of a catalog for one filter: facts by key and by owner, singular forms of plurals,
parents of types. The list of platforms alone covers the facts that the filter leaves out. -/

namespace InventoryQuery

structure Index where
  filter : Filter
  keys : OrderedMap String PropertyFact
  /-- The facts of each owner in document order, those of the world under no owner. -/
  owned : OrderedMap (Option String) (List PropertyFact)
  singulars : OrderedMap String String
  parents : OrderedMap String String
  /-- Each platform with the versions that mention it. -/
  platforms : OrderedMap String (List String)

namespace Index

def bare (filter : Filter) : Index := ⟨filter, .empty, .empty, .empty, .empty, .empty⟩

def mention (version : String) (platforms : OrderedMap String (List String)) (platform : String) :
    OrderedMap String (List String) :=
  platforms.upsert platform fun versions =>
    let versions := versions.getD []
    if versions.contains version then versions else versions ++ [version]

def listPlatforms (ix : Index) (a : Availability) : Index :=
  { ix with platforms := a.entries.foldl (fun platforms e => e.2.foldl (mention e.1) platforms) ix.platforms }

def addType (ix : Index) (f : TypeFact) : Index :=
  let ix := ix.listPlatforms f.availability
  if ix.filter.admits f.availability then
    match f.parent with
    | some parent => { ix with parents := ix.parents.insert f.name parent }
    | none => ix
  else ix

def addSingular (ix : Index) (f : PropertyFact) : Index :=
  match f.singular, f.plural with
  | some singular, some plural => { ix with singulars := ix.singulars.insert plural singular }
  | _, _ => ix

def file (ix : Index) (f : PropertyFact) : Index :=
  { ix with
    keys := ix.keys.insert f.indexKey f
    owned := ix.owned.upsert f.owner fun facts => facts.getD [] ++ [f] }

def addProperty (ix : Index) (f : PropertyFact) : Index :=
  let ix := ix.listPlatforms f.availability
  if ix.filter.admits f.availability then
    let ix := ix.addSingular f
    if f.isProperty then ix.file f else ix
  else ix

def build (c : Catalog) (filter : Filter) : Index :=
  c.properties.values.foldl addProperty (c.types.values.foldl addType (bare filter))

end Index

end InventoryQuery
