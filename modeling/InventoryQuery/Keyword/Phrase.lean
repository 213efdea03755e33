import InventoryQuery.Token.Kind
import InventoryQuery.Text.Search

/-! The phrases that the language reserves, and the single word that stands for each of them in
rewritten text: a sentinel, then the words of the phrase with joiners between them. -/

namespace InventoryQuery

def sentinel : Char := '$'

def joiner : Char := '-'

structure Keyword where
  spoken : String
  kind : Kind
  deriving Repr, DecidableEq

namespace Keyword

def words (k : Keyword) : List (List Char) := piecesAt ' ' k.spoken.toList

/-- `is not` is written `$is-not`. -/
def written (k : Keyword) : List Char :=
  sentinel :: k.spoken.toList.map fun c => if c = ' ' then joiner else c

def relations : List Keyword :=
  ["does not end with", "ends with", "does not start with", "starts with", "is not contained by", "is contained by",
   "does not contain", "is not greater than or equal to", "is greater than or equal to", "is not less than or equal to",
   "is less than or equal to", "is not less than", "is less than", "is not greater than", "is greater than", "is equal to",
   "is not equal to", "is not", "is", "does not equal", "equals", "contains"].map (⟨·, .relation⟩)

def negatedExistence : List Keyword :=
  ["there do not exist", "there does not exist", "there exist no", "there exists no", "exists no", "exist no"].map
    (⟨·, .notExistsWord⟩)

def existence : List Keyword := ["there exists", "there exist", "exists", "exist"].map (⟨·, .existsWord⟩)

def singleWords : List Keyword :=
  [⟨"its", .itsWord⟩, ⟨"of", .ofWord⟩, ⟨"whose", .whoseWord⟩, ⟨"as", .asWord⟩, ⟨"it", .itWord⟩, ⟨"not", .notWord⟩,
   ⟨"and", .andWord⟩, ⟨"or", .orWord⟩, ⟨"mod", .modWord⟩, ⟨"if", .ifWord⟩, ⟨"then", .thenWord⟩, ⟨"else", .elseWord⟩]

def all : List Keyword := relations ++ negatedExistence ++ existence ++ singleWords

end Keyword

/-- The spoken form of an operator: leading sentinels go, joiners become spaces. -/
def spokenForm (operator : List Char) : List Char :=
  (operator.dropWhile (· == sentinel)).map fun c => if c = joiner then ' ' else c

/-- Words that say nothing and are left out. -/
def articles : List String := ["a", "an"]

end InventoryQuery
