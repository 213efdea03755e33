import InventoryQuery.Proofs.Tree.Fold

/-! A table in the making is a forest: every row is a part of exactly one row, once, or it is one of
the roots, which are still open. A new row takes some of the roots as its parts and is a root
itself. -/

namespace InventoryQuery.Tree

def allChildren (nodes : Array Node) : List NodeId := nodes.toList.flatMap (·.shape.children)

structure Forest (nodes : Array Node) (roots : List NodeId) : Prop where
  covers : (allChildren nodes ++ roots).Perm (List.range nodes.size)
  downward : Downward nodes

theorem allChildren_push (nodes : Array Node) (n : Node) :
    allChildren (nodes.push n) = allChildren nodes ++ n.shape.children := by
  simp [allChildren]

namespace Forest

theorem empty : Forest #[] [] := ⟨.refl _, fun id n h => by simp at h⟩

variable {nodes : Array Node} {roots : List NodeId}

theorem lt_size (h : Forest nodes roots) {id : NodeId} (hid : id ∈ roots) : id < nodes.size := by
  have := h.covers.mem_iff.1 (List.mem_append_right _ hid)
  exact List.mem_range.1 this

theorem push {parts : List NodeId} {n : Node} (h : Forest nodes (roots ++ parts))
    (hp : n.shape.children.Perm parts) : Forest (nodes.push n) (roots ++ [nodes.size]) := by
  constructor
  · rw [allChildren_push, Array.size_push, List.range_succ]
    have parted : (allChildren nodes ++ n.shape.children ++ roots).Perm
        (List.range nodes.size) := by
      refine .trans ?_ h.covers
      rw [List.append_assoc]
      exact (hp.append_right roots |>.trans List.perm_append_comm).append_left _
    rw [← List.append_assoc]
    exact parted.append_right _
  · intro id m hm child hc
    rw [Array.getElem?_push] at hm
    split at hm
    · cases hm
      subst id
      exact h.lt_size (List.mem_append_right _ (hp.mem_iff.1 hc))
    · exact h.downward id m hm child hc

/-- The last row is a root, and without it its parts are. -/
theorem of_push {n : Node} (h : Forest (nodes.push n) roots) :
    ∃ others, roots.Perm (nodes.size :: others) ∧ Forest nodes (others ++ n.shape.children) := by
  have covers := h.covers
  rw [allChildren_push, Array.size_push, List.range_succ] at covers
  have below : nodes.size ∉ allChildren nodes ++ n.shape.children := by
    intro hm
    rcases List.mem_append.1 hm with hm | hm
    · obtain ⟨m, hm, hc⟩ := List.mem_flatMap.1 hm
      obtain ⟨id, hid, rfl⟩ := List.getElem_of_mem hm
      have hid' : id < nodes.size := by simpa using hid
      have := h.downward.of_push id _ (by simp [hid']) _ hc
      exact Nat.lt_asymm hid' this
    · exact Nat.lt_irrefl _ (h.downward.children_lt_of_push _ hm)
  have root : nodes.size ∈ roots := by
    have := covers.mem_iff.2 (List.mem_append_right _ (List.mem_singleton.2 rfl))
    exact (List.mem_append.1 this).resolve_left below
  obtain ⟨front, back, rfl⟩ := List.append_of_mem root
  refine ⟨front ++ back, List.perm_middle, ⟨?_, h.downward.of_push⟩⟩
  have moved : (nodes.size :: (allChildren nodes ++ n.shape.children ++ (front ++ back))).Perm
      (nodes.size :: List.range nodes.size) := by
    refine .trans ?_ (covers.trans List.perm_append_comm)
    rw [← List.append_assoc _ front back, ← List.append_assoc _ front (_ :: back)]
    exact List.perm_middle.symm
  refine .trans ?_ ((List.perm_cons _).1 moved)
  rw [List.append_assoc (allChildren nodes)]
  exact List.perm_append_comm.append_left _

end Forest

end InventoryQuery.Tree
