import InventoryQuery.Catalog.Index

/-! Looking facts up. Phrases are brought to their singular, and a property is searched on the owner
and then on its ancestors. -/

namespace InventoryQuery

def worldType : String := "world"

/-- The key of `name` applied to `params` on `owner`, without the result. -/
def lookupKey (name : String) (params owner : Option String) : String :=
  name ++ (params.map fun p => " <" ++ p ++ ">").getD "" ++ (owner.map fun o => " of <" ++ o ++ ">").getD ""

inductive LookupError where
  | noProperty (owner property : String) (params : Option String)
  | noCreation (name : String) (params : Option String)
  deriving Repr, DecidableEq

namespace LookupError

def applied (name : String) (params : Option String) : String := name ++ (params.map fun p => " <" ++ p ++ ">").getD ""

def message : LookupError → String
  | noProperty owner property params => "no property '" ++ applied property params ++ "' on type '" ++ owner ++ "'"
  | noCreation name params => "no creation function '" ++ applied name params ++ "'"

end LookupError

namespace Index

def propertyCount (ix : Index) : Nat := ix.keys.size

def get? (ix : Index) (key : String) : Option PropertyFact := ix.keys.get? key

/-- A phrase that is no known plural stands for itself. -/
def singular (ix : Index) (phrase : String) : String := (ix.singulars.get? phrase).getD phrase

/-- A type without a parent is its own. -/
def parent (ix : Index) (type : String) : String := (ix.parents.get? type).getD type

/-- The ancestors of `type` that `seen` does not hold yet, at most `n` of them. -/
def ancestorsFrom (ix : Index) : (n : Nat) → (seen : List String) → (type : String) → List String
  | 0, _, _ => []
  | n + 1, seen, type =>
    let next := ix.parent type
    if seen.contains next then [] else next :: ix.ancestorsFrom n (next :: seen) next

/-- The type and its ancestors, up to a root or to the first type that comes again. Every step uses
up a declared parent. -/
def ancestry (ix : Index) (type : String) : List String := type :: ix.ancestorsFrom (ix.parents.size + 1) [type] type

/-- The property on the owner, or on the nearest ancestor that has it. -/
def property (ix : Index) (owner name : String) (params : Option String) : Except LookupError PropertyFact :=
  let name := ix.singular name
  let params := params.map ix.singular
  match (ix.ancestry (ix.singular owner)).findSome? fun type => ix.get? (lookupKey name params (some type)) with
  | some f => .ok f
  | none => .error (.noProperty owner name params)

def creation (ix : Index) (name : String) (params : Option String) : Except LookupError PropertyFact :=
  let name := ix.singular name
  let params := params.map ix.singular
  match ix.get? (lookupKey name params none) with
  | some f => .ok f
  | none => .error (.noCreation name params)

def ownedBy (ix : Index) (owner : Option String) : List PropertyFact := (ix.owned.get? owner).getD []

/-- Own properties first, then those of each ancestor; the world has the creations. -/
def allProperties (ix : Index) (type : String) : List PropertyFact :=
  if type = worldType then ix.ownedBy none
  else (ix.ancestry (ix.singular type)).flatMap fun t => ix.ownedBy (some t)

end Index

end InventoryQuery
