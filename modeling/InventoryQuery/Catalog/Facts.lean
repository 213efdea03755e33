import InventoryQuery.Catalog.OrderedMap
import InventoryQuery.Text.Blank
import InventoryQuery.Text.Search

/-! The facts of a catalog: types with their parents, and properties of types. A property without an
owner creates values out of nothing, in other words it is a property of the world. -/

namespace InventoryQuery

/-- For each version the platforms that have the fact. -/
abbrev Availability := OrderedMap String (List String)

structure TypeFact where
  name : String
  parent : Option String
  availability : Availability
  deriving DecidableEq, Inhabited

structure PropertyFact where
  /-- Name, parameter, owner and result, as in `file <string> of <folder>: file`. -/
  key : String
  kind : Option String
  singular : Option String
  plural : Option String
  owner : Option String
  resultType : String
  availability : Availability
  description : Option String
  deriving DecidableEq, Inhabited

namespace PropertyFact

def indexKeyChars (f : PropertyFact) : List Char := trim (f.key.toList.takeWhile (· ≠ ':'))

def indexKey (f : PropertyFact) : String := String.ofList f.indexKeyChars

/-- Facts of other kinds, such as operators and casts, are listed but not looked up. -/
def isProperty (f : PropertyFact) : Bool := f.kind.all (· == "property")

def isCreation (f : PropertyFact) : Bool := f.owner.isNone

def withoutParens (cs : List Char) : List Char :=
  match cs with
  | '(' :: rest => if rest.getLast? = some ')' then rest.dropLast else cs
  | _ => cs

/-- The types in angle brackets that come before the owner. -/
def parameterTypes (f : PropertyFact) : List String :=
  match (upTo " of <".toList f.indexKeyChars).dropWhile (· ≠ '<') with
  | [] => []
  | _ :: inside =>
    let closed := (inside.reverse.dropWhile (· = '>')).reverse
    (((piecesAt ',' (withoutParens closed)).map trim).filter fun p => !p.isEmpty).map String.ofList

end PropertyFact

structure Catalog where
  types : OrderedMap String TypeFact
  properties : OrderedMap String PropertyFact
  deriving DecidableEq, Inhabited

namespace Catalog

def empty : Catalog := ⟨.empty, .empty⟩

/-- Names and keys that a document leaves out are those under which it lists the facts. -/
def normalized (c : Catalog) : Catalog :=
  ⟨c.types.mapValues fun name f => if f.name = "" then { f with name := name } else f,
   c.properties.mapValues fun key f => if f.key = "" then { f with key := key } else f⟩

end Catalog

end InventoryQuery
