import Mathlib.Data.List.Basic
import InventoryQuery.Proofs.Tree.Fold
import InventoryQuery.Tree.Scope

/-! Placing the receivers leaves the forms and the spans of all nodes alone, and so the expression
that the table stands for. -/

namespace InventoryQuery.Tree

def shapes (nodes : Array Node) : Array (Shape NodeId) := nodes.map (·.shape)

/-- A fold sees the forms only. -/
theorem result_congr {β : Type} [Inhabited β] (f : NodeId → Shape β → β) {nodes others : Array Node}
    (h : shapes nodes = shapes others) (id : NodeId) : result f nodes id = result f others id := by
  have folded (nodes : Array Node) : (Tree.mk nodes 0).foldUp f =
      (shapes nodes).foldl
        (fun done s => done.push (f done.size (s.map fun id => done[id]?.getD default))) #[] := by
    rw [shapes, Array.foldl_map]
    rfl
  rw [result, result, folded, folded, h]

def bare (nodes : Array Node) : Array Node := nodes.map fun n => { n with scope := none, direct := false }

theorem shapes_bare (nodes : Array Node) : shapes (bare nodes) = shapes nodes := by
  rw [shapes, bare, Array.map_map]
  rfl

theorem shapes_of_bare {nodes others : Array Node} (h : bare nodes = bare others) :
    shapes nodes = shapes others := by
  rw [← shapes_bare, h, shapes_bare]

theorem bare_place (nodes : Array Node) (h : NodeId × Option NodeId × Bool) :
    bare (place nodes h) = bare nodes := by
  unfold bare place
  refine Array.ext (by simp) fun i hi hj => ?_
  simp only [Array.getElem_map, Array.getElem_modify]
  split <;> rfl

theorem bare_foldl_place (places : List (NodeId × Option NodeId × Bool)) (nodes : Array Node) :
    bare (places.foldl place nodes) = bare nodes := by
  induction places generalizing nodes with
  | nil => rfl
  | cons p places ih => rw [List.foldl_cons, ih, bare_place]

theorem bare_placeChildren (nodes : Array Node) (id : NodeId) :
    bare (placeChildren nodes id) = bare nodes := by
  unfold placeChildren
  split
  · exact bare_foldl_place _ nodes
  · rfl

theorem bare_foldl_placeChildren (ids : List NodeId) (nodes : Array Node) :
    bare (ids.foldl placeChildren nodes) = bare nodes := by
  induction ids generalizing nodes with
  | nil => rfl
  | cons id ids ih => rw [List.foldl_cons, ih, bare_placeChildren]

theorem bare_withScopes (t : Tree) : bare t.withScopes.nodes = bare t.nodes := by
  rw [withScopes, bare_foldl_placeChildren, bare_place]

theorem shapes_place (nodes : Array Node) (h : NodeId × Option NodeId × Bool) :
    shapes (place nodes h) = shapes nodes := shapes_of_bare (bare_place nodes h)

theorem shapes_placeChildren (nodes : Array Node) (id : NodeId) :
    shapes (placeChildren nodes id) = shapes nodes := shapes_of_bare (bare_placeChildren nodes id)

theorem shapes_foldl_placeChildren (ids : List NodeId) (nodes : Array Node) :
    shapes (ids.foldl placeChildren nodes) = shapes nodes :=
  shapes_of_bare (bare_foldl_placeChildren ids nodes)

theorem shapes_withScopes (t : Tree) : shapes t.withScopes.nodes = shapes t.nodes :=
  shapes_of_bare (bare_withScopes t)

/-- What is read off a node apart from its receiver. -/
theorem filterMap_withScopes {β : Type} {f : Node → Option β}
    (hf : ∀ n, f { n with scope := none, direct := false } = f n) (t : Tree) :
    t.withScopes.nodes.toList.filterMap f = t.nodes.toList.filterMap f := by
  have blind (nodes : Array Node) :
      (bare nodes).toList.filterMap f = nodes.toList.filterMap f := by
    rw [bare, Array.toList_map, List.filterMap_map]
    exact List.filterMap_congr fun n _ => hf n
  rw [← blind, bare_withScopes, blind]

theorem rootExpr_withScopes (t : Tree) : t.withScopes.rootExpr = t.rootExpr :=
  result_congr (fun _ s => Expr.node s) (shapes_withScopes t) t.root

end InventoryQuery.Tree
