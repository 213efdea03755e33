import InventoryQuery.Tree.Expr
import InventoryQuery.Text.Span

/-! An expression as a table of nodes. A node is entered when it is complete, so its parts have
smaller numbers than it has. -/

namespace InventoryQuery

/-- A row of the table. -/
abbrev NodeId := Nat

structure Node where
  shape : Shape NodeId
  span : Span
  /-- The node whose type is the receiver here. -/
  scope : Option NodeId
  /-- The node is looked up on its receiver. -/
  direct : Bool
  deriving Repr, DecidableEq, Inhabited

structure Tree where
  nodes : Array Node
  root : NodeId
  deriving Repr, DecidableEq, Inhabited

namespace Tree

def size (t : Tree) : Nat := t.nodes.size

def ids (t : Tree) : List NodeId := List.range t.size

def shape? (t : Tree) (id : NodeId) : Option (Shape NodeId) := t.nodes[id]?.map (·.shape)

def scope? (t : Tree) (id : NodeId) : Option NodeId := t.nodes[id]?.bind (·.scope)

def isDirect (t : Tree) (id : NodeId) : Bool := t.nodes[id]?.any (·.direct)

def children (t : Tree) (id : NodeId) : List NodeId := ((t.shape? id).map Shape.children).getD []

/-- Works through the table from the first row on, giving each node the results of its parts. -/
def foldUp {β : Type} [Inhabited β] (t : Tree) (f : NodeId → Shape β → β) : Array β :=
  t.nodes.foldl (fun done n => done.push (f done.size (n.shape.map fun id => done[id]?.getD default))) #[]

def exprs (t : Tree) : Array Expr := t.foldUp fun _ s => .node s

def expr (t : Tree) (id : NodeId) : Expr := t.exprs[id]?.getD default

def rootExpr (t : Tree) : Expr := t.expr t.root

/-- Every node of the subtree, each before its parts. -/
def preorderOf (t : Tree) (id : NodeId) : List NodeId :=
  (t.foldUp fun id s => id :: s.children.flatten)[id]?.getD []

def preorder (t : Tree) : List NodeId := t.preorderOf t.root

def parents (t : Tree) : Array (Option NodeId) :=
  t.preorder.foldl (fun table id => (t.children id).foldl (fun table child => table.setIfInBounds child (some id)) table)
    (Array.replicate t.size none)

def startOf (t : Tree) (id : NodeId) : Nat := (t.nodes[id]?.map (·.span.start)).getD 0

def markers (t : Tree) : List NodeId :=
  (t.ids.filter fun id => t.shape? id = some .marker).mergeSort fun a b => t.startOf a ≤ t.startOf b

end Tree

end InventoryQuery
