import InventoryQuery.Catalog.Lookup

/-! Types of expressions: the types of the catalog, tuples of types, and what an operator yields
that has no typing rule. -/

namespace InventoryQuery

inductive Ty where
  | named (name : String)
  | tuple (items : List Ty)
  | unsupported (operator : String)
  deriving Inhabited

inductive TypeError where
  | lookup (error : LookupError)
  | unsupportedOperator (operator : String)
  | unboundIt
  | noItem (index length : Nat)
  deriving Repr, DecidableEq

def TypeError.message : TypeError → String
  | lookup e => e.message
  | unsupportedOperator operator => "operator '" ++ operator ++ "' has no result type"
  | unboundIt => "'it' has no enclosing scope"
  | noItem index length => "tuple has " ++ toString length ++ " items, no item " ++ toString index

namespace Ty

def world : Ty := named worldType

def boolean : Ty := named "boolean"

def string : Ty := named "string"

def number : Ty := named "number"

def name? : Ty → Option String
  | named name => some name
  | _ => none

def isWorld (ty : Ty) : Bool := ty.name? == some worldType

mutual

/-- Tuples are written as they occur in keys. -/
def display : Ty → String
  | named name => name
  | tuple items => "(" ++ displayAll items ++ ")"
  | unsupported operator => "<unsupported " ++ operator ++ ">"

def displayAll : List Ty → String
  | [] => ""
  | [ty] => ty.display
  | ty :: tys => ty.display ++ ", " ++ displayAll tys

end

def ownerName : Ty → Except TypeError String
  | named name => .ok name
  | tuple items => .ok (tuple items).display
  | unsupported operator => .error (.unsupportedOperator operator)

def property (ty : Ty) (ix : Index) (name : String) (params : Option String) : Except TypeError Ty := do
  let owner ← ty.ownerName
  match ix.property owner name params with
  | .ok f => .ok (named f.resultType)
  | .error e => .error (.lookup e)

/-- Only types of the catalog have properties that can be listed. -/
def properties (ty : Ty) (ix : Index) : List PropertyFact :=
  match ty with
  | named name => ix.allProperties name
  | _ => []

end Ty

end InventoryQuery
