import InventoryQuery.Catalog.Facts
import InventoryQuery.Json.Structure

/-! Catalogs as JSON documents. Fields that a document leaves out are empty; only the result type of
a property has to be there. What is written leaves absent fields out and keeps every order. -/

namespace InventoryQuery

open Json (Reader RecordField Fault writeString)

/-- An object with any keys. A key that comes again keeps its first place and takes the last
value. -/
def readMap {α : Type} (value : Reader α) : Reader (OrderedMap String α) := do
  if (← Json.peekToken) = some (Json.ascii '\x7b') then
    Json.advance
    Json.members (fun key m => do
      Json.expect (Json.ascii ':')
      let a ← value
      pure (m.insert key a)) .empty
  else Json.otherShape

def writeObject (members : List (String × String)) : String :=
  "\x7b" ++ ",".intercalate (members.map fun m => writeString m.1 ++ ":" ++ m.2) ++ "\x7d"

def writeArray (elements : List String) : String := "[" ++ ",".intercalate elements ++ "]"

def writeMap {α : Type} (value : α → String) (m : OrderedMap String α) : String :=
  writeObject (m.entries.map fun e => (e.1, value e.2))

def optionalMember (name : String) (value : Option String) : List (String × String) :=
  value.toList.map fun v => (name, writeString v)

namespace Availability

def read : Reader Availability := readMap (Json.array Json.string)

def write (a : Availability) : String := writeMap (fun platforms => writeArray (platforms.map writeString)) a

end Availability

namespace TypeFact

def bare : TypeFact := ⟨"", none, .empty⟩

def fields : List (RecordField TypeFact) :=
  [⟨"name", fun f => do return { f with name := ← Json.string }⟩,
   ⟨"parent", fun f => do return { f with parent := ← Json.nullable Json.string }⟩,
   ⟨"availability", fun f => do return { f with availability := ← Availability.read }⟩]

def read : Reader TypeFact := Json.record fields [] bare

def write (f : TypeFact) : String :=
  writeObject ([("name", writeString f.name)] ++ optionalMember "parent" f.parent
    ++ [("availability", Availability.write f.availability)])

end TypeFact

namespace PropertyFact

def bare : PropertyFact := ⟨"", none, none, none, none, "", .empty, none⟩

def fields : List (RecordField PropertyFact) :=
  [⟨"key", fun f => do return { f with key := ← Json.string }⟩,
   ⟨"type", fun f => do return { f with kind := ← Json.nullable Json.string }⟩,
   ⟨"singularPhrase", fun f => do return { f with singular := ← Json.nullable Json.string }⟩,
   ⟨"pluralPhrase", fun f => do return { f with plural := ← Json.nullable Json.string }⟩,
   ⟨"directObjectType", fun f => do return { f with owner := ← Json.nullable Json.string }⟩,
   ⟨"resultType", fun f => do return { f with resultType := ← Json.string }⟩,
   ⟨"availability", fun f => do return { f with availability := ← Availability.read }⟩,
   ⟨"description", fun f => do return { f with description := ← Json.nullable Json.string }⟩]

def read : Reader PropertyFact := Json.record fields ["resultType"] bare

def write (f : PropertyFact) : String :=
  writeObject ([("key", writeString f.key)] ++ optionalMember "type" f.kind ++ optionalMember "singularPhrase" f.singular
    ++ optionalMember "pluralPhrase" f.plural ++ optionalMember "directObjectType" f.owner
    ++ [("resultType", writeString f.resultType), ("availability", Availability.write f.availability)]
    ++ optionalMember "description" f.description)

end PropertyFact

namespace Catalog

def fields : List (RecordField Catalog) :=
  [⟨"types", fun c => do return { c with types := ← readMap TypeFact.read }⟩,
   ⟨"properties", fun c => do return { c with properties := ← readMap PropertyFact.read }⟩]

def read : Reader Catalog := Json.record fields [] empty

def write (c : Catalog) : String :=
  writeObject [("types", writeMap TypeFact.write c.types), ("properties", writeMap PropertyFact.write c.properties)]

inductive LoadError where
  | document (fault : Fault)
  | notFound (path : String)
  deriving Repr, DecidableEq

/-- A fault of the document is told by its class alone. -/
def LoadError.message? : LoadError → Option String
  | document _ => none
  | notFound path => some ("cannot read knowledge base " ++ path ++ ": No such file or directory (os error 2)")

/-- Names and keys are filled in. -/
def ofBytes (bytes : List UInt8) : Except LoadError Catalog :=
  match Json.document read bytes with
  | .ok c => .ok c.normalized
  | .error fault => .error (.document fault)

def ofText (text : String) : Except LoadError Catalog := ofBytes text.toUTF8.data.toList

end Catalog

end InventoryQuery
