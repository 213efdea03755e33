import InventoryQuery.Tree.Table

/-! Receivers. The accessor of a property is looked up on the source, and a filter sees what is
filtered; everything else keeps the receiver of the node around it. -/

namespace InventoryQuery.Tree

/-- What a node hands to its parts: part, receiver, and whether the part is looked up on it. -/
def handedDown (n : Node) : List (NodeId × Option NodeId × Bool) :=
  match n.shape with
  | .property accessor source => [(source, n.scope, false), (accessor, some source, true)]
  | .whose source filter => [(source, n.scope, n.direct), (filter, some source, false)]
  | s => s.children.map fun child => (child, n.scope, false)

def place (nodes : Array Node) (h : NodeId × Option NodeId × Bool) : Array Node :=
  nodes.modify h.1 fun n => { n with scope := h.2.1, direct := h.2.2 }

/-- The settings of `id` are final when its turn comes, since its parent has a larger number. -/
def placeChildren (nodes : Array Node) (id : NodeId) : Array Node :=
  match nodes[id]? with
  | some n => (handedDown n).foldl place nodes
  | none => nodes

/-- From the last node to the first. Where children come before their parents in the table this sets
the same as going through the tree in preorder. -/
def withScopes (t : Tree) : Tree :=
  { t with nodes := t.ids.reverse.foldl placeChildren (place t.nodes (t.root, none, false)) }

end InventoryQuery.Tree
