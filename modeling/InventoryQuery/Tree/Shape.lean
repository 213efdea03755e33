import InventoryQuery.Tree.Operator

/-! The forms of expression, with the parts left open: node numbers in a table, whole expressions in
an abstract tree. -/

namespace InventoryQuery

inductive Shape (α : Type) where
  | string (value : String)
  | number (digits : String)
  | it
  | phrase (name : String) (argument : Option α)
  | property (accessor source : α)
  | whose (source filter : α)
  | parens (content : α)
  | cast (source : α) (target : String)
  | unary (operator : PrefixOperator) (operand : α)
  | binary (operator : InfixOperator) (left right : α)
  | tuple (items : List α)
  | collection (items : List α)
  | conditional (condition thenBranch elseBranch : α)
  | marker
  deriving Repr, DecidableEq, Inhabited

namespace Shape

variable {α β : Type}

def tag : Shape α → String
  | string _ => "string"
  | number _ => "number"
  | it => "it"
  | phrase .. => "phrase"
  | property .. => "property"
  | whose .. => "whose"
  | parens _ => "parens"
  | cast .. => "cast"
  | unary .. => "unary"
  | binary .. => "binary"
  | tuple _ => "tuple"
  | collection _ => "collection"
  | conditional .. => "if"
  | marker => "type-hint"

/-- The parts, in the order in which a tree is walked. -/
def children : Shape α → List α
  | string _ | number _ | it | marker => []
  | phrase _ argument => argument.toList
  | property accessor source => [accessor, source]
  | whose source filter => [source, filter]
  | parens content => [content]
  | cast source _ => [source]
  | unary _ operand => [operand]
  | binary _ left right => [left, right]
  | tuple items | collection items => items
  | conditional condition thenBranch elseBranch => [condition, thenBranch, elseBranch]

def text? : Shape α → Option String
  | string value => some value
  | number digits => some digits
  | phrase name _ => some name
  | cast _ target => some target
  | unary operator _ => some operator.spelling
  | binary operator .. => some operator.spelling
  | _ => none

def map (f : α → β) : Shape α → Shape β
  | string value => string value
  | number digits => number digits
  | it => it
  | phrase name argument => phrase name (argument.map f)
  | property accessor source => property (f accessor) (f source)
  | whose source filter => whose (f source) (f filter)
  | parens content => parens (f content)
  | cast source target => cast (f source) target
  | unary operator operand => unary operator (f operand)
  | binary operator left right => binary operator (f left) (f right)
  | tuple items => tuple (items.map f)
  | collection items => collection (items.map f)
  | conditional condition thenBranch elseBranch => conditional (f condition) (f thenBranch) (f elseBranch)
  | marker => marker

@[simp] theorem children_map (f : α → β) (s : Shape α) : (s.map f).children = s.children.map f := by
  cases s with
  | phrase name argument => cases argument <;> rfl
  | _ => rfl

end Shape

end InventoryQuery
