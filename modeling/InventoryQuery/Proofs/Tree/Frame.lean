import InventoryQuery.Tree.Expr
import InventoryQuery.Tree.Table

/-! Expressions with a hole. A frame is a node with one of its parts left open, and what is around a
part of an expression are the frames of the nodes on the way down to it. The places of the parts on
that way lead to the part in every table that holds the expression. -/

namespace InventoryQuery

/-- A node with one of its parts left open. -/
structure Frame where
  shape : Shape (Option Expr)
  single : shape.children.countP Option.isNone = 1

namespace Frame

def fill (f : Frame) (e : Expr) : Expr := .node (f.shape.map (·.getD e))

def place (f : Frame) : Nat := f.shape.children.findIdx Option.isNone

theorem getElem?_place (f : Frame) : f.shape.children[f.place]? = some none := by
  have positive : 0 < f.shape.children.countP Option.isNone := by rw [f.single]; decide
  have inside : f.place < f.shape.children.length :=
    List.findIdx_lt_length_of_exists (List.countP_pos_iff.1 positive)
  rw [List.getElem?_eq_getElem inside]
  exact congrArg _ (Option.isNone_iff_eq_none.1 (List.findIdx_getElem (w := inside)))

/-- The open part is what the frame is filled with. -/
theorem children_fill (f : Frame) (e : Expr) : (f.fill e).children[f.place]? = some e := by
  rw [Expr.children, fill, Expr.shape, Shape.children_map, List.getElem?_map, f.getElem?_place]
  rfl

end Frame

/-- The expression inside the frames, the outermost first. -/
def plug (frames : List Frame) (e : Expr) : Expr := frames.foldr Frame.fill e

theorem plug_append (outer inner : List Frame) (e : Expr) :
    plug (outer ++ inner) e = plug outer (plug inner e) := List.foldr_append ..

namespace Tree

/-- The node that a way down leads to, each step to the part at a place. -/
def follow? (t : Tree) : NodeId → List Nat → Option NodeId
  | id, [] => some id
  | id, k :: ks => (t.children id)[k]?.bind fun child => t.follow? child ks

theorem follow?_append (t : Tree) (id : NodeId) (ks ls : List Nat) :
    t.follow? id (ks ++ ls) = (t.follow? id ks).bind fun child => t.follow? child ls := by
  induction ks generalizing id with
  | nil => rfl
  | cons k ks ih =>
    rw [List.cons_append, follow?, follow?, Option.bind_assoc]
    exact congrArg _ (funext fun child => ih child)

end Tree

end InventoryQuery
