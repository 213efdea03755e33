import InventoryQuery.Catalog.Document
import InventoryQuery.Cursor.Completion

/-! A host owns a catalog and the index that is current. A snapshot answers from the index it was
taken with, whatever the host does afterwards. -/

namespace InventoryQuery

structure Host where
  catalog : Catalog
  index : Index
  options : Cursor.Options

structure Snapshot where
  index : Index
  options : Cursor.Options

namespace Host

/-- All of the catalog is indexed at first. -/
def ofCatalog (c : Catalog) (options : Cursor.Options) : Host := ⟨c, .build c .everything, options⟩

def withFilter (h : Host) (filter : Filter) : Host := { h with index := .build h.catalog filter }

def snapshot (h : Host) : Snapshot := ⟨h.index, h.options⟩

end Host

inductive QueryError where
  | syntactic (error : SyntaxError)
  | typing (error : TypeError)

def QueryError.message : QueryError → String
  | syntactic e => e.report.display
  | typing e => e.message

namespace Snapshot

def typeOf? (s : Snapshot) (text : String) : Option (Except QueryError Ty) :=
  match compile text.toList with
  | .error e => some (.error (.syntactic e))
  | .ok tree => (tree.typeOf? s.index tree.root).map fun r => r.mapError .typing

def predict (s : Snapshot) (text : String) (offset : Nat) : Cursor.Prediction := Cursor.predict s.options text.toList offset

def typeAt (s : Snapshot) (text : String) (offset : Nat) : Option Ty :=
  match (s.predict text offset).markedType s.index with
  | some (.ok ty) => some ty
  | _ => none

def completions (s : Snapshot) (text : String) (offset : Nat) : List Cursor.Completion :=
  (s.predict text offset).completions s.index

def propertiesOf (s : Snapshot) (type : String) : List PropertyFact := (Ty.named type).properties s.index

end Snapshot

end InventoryQuery
