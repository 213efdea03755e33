import InventoryQuery.Tree.Shape

/-! An expression without places or numbers: a form over expressions. -/

namespace InventoryQuery

inductive Expr where
  | node (shape : Shape Expr)

instance : Inhabited Expr := ⟨.node .marker⟩

namespace Expr

def shape : Expr → Shape Expr
  | node s => s

def children (e : Expr) : List Expr := e.shape.children

mutual

/-- The number of nodes on the longest way down. -/
def height : Expr → Nat
  | node s => heightBelow s + 1

def heightBelow : Shape Expr → Nat
  | .string _ | .number _ | .it | .marker => 0
  | .phrase _ none => 0
  | .phrase _ (some argument) => argument.height
  | .property accessor source => max accessor.height source.height
  | .whose source filter => max source.height filter.height
  | .parens content => content.height
  | .cast source _ => source.height
  | .unary _ operand => operand.height
  | .binary _ left right => max left.height right.height
  | .tuple items => heightOfAll items
  | .collection items => heightOfAll items
  | .conditional condition thenBranch elseBranch => max condition.height (max thenBranch.height elseBranch.height)

def heightOfAll : List Expr → Nat
  | [] => 0
  | e :: es => max e.height (heightOfAll es)

end

end Expr

end InventoryQuery
