import InventoryQuery.Proofs.Tree.Parents
import InventoryQuery.Proofs.Tree.Scope

/-! What the pass over a table leaves in each row. A row is written once, when the turn of its whole
comes, and the settings that it gets then are final, since the whole has been written before. -/

namespace InventoryQuery.Tree

section shapes

variable {nodes others : Array Node} {roots : List NodeId} {id : NodeId}

theorem map_shape_eq (h : shapes nodes = shapes others) (id : NodeId) :
    nodes[id]?.map (·.shape) = others[id]?.map (·.shape) := by
  rw [← Array.getElem?_map, ← Array.getElem?_map]
  exact congrArg (·[id]?) h

theorem children_eq_of_shapes (h : shapes nodes = shapes others) (r q : NodeId) :
    (Tree.mk nodes r).children id = (Tree.mk others q).children id := by
  simp only [children, shape?, map_shape_eq h id]

theorem size_eq_of_shapes (h : shapes nodes = shapes others) : nodes.size = others.size := by
  simpa [shapes] using congrArg Array.size h

theorem Forest.of_shapes (h : Forest nodes roots) (same : shapes nodes = shapes others) :
    Forest others roots := by
  constructor
  · have parts : allChildren nodes = allChildren others := by
      have forms := congrArg (fun forms => forms.toList.flatMap Shape.children) same
      simpa [shapes, allChildren, List.flatMap_map] using forms
    rw [← parts, ← size_eq_of_shapes same]
    exact h.covers
  · intro id n hn child hc
    have found := map_shape_eq same id
    rw [hn] at found
    obtain ⟨m, hm, shape⟩ := Option.map_eq_some_iff.1 found
    exact h.downward id m hm child (by rwa [shape])

end shapes

theorem Whole.withScopes {t : Tree} (h : t.Whole) : t.withScopes.Whole :=
  Forest.of_shapes h (shapes_withScopes t).symm

/-- The node with the settings that it is handed. -/
def settled (h : NodeId × Option NodeId × Bool) (n : Node) : Node :=
  { n with scope := h.2.1, direct := h.2.2 }

section place

variable {places : List (NodeId × Option NodeId × Bool)} {id : NodeId}

theorem getElem?_place_self (nodes : Array Node) (h : NodeId × Option NodeId × Bool) :
    (place nodes h)[h.1]? = nodes[h.1]?.map (settled h) := by
  rw [place, Array.getElem?_modify, if_pos rfl]
  rfl

theorem getElem?_place_of_ne (nodes : Array Node) {h : NodeId × Option NodeId × Bool}
    (hne : h.1 ≠ id) : (place nodes h)[id]? = nodes[id]? := by
  rw [place, Array.getElem?_modify, if_neg hne]

theorem foldl_place_of_not_mem (h : id ∉ places.map (·.1)) (nodes : Array Node) :
    (places.foldl place nodes)[id]? = nodes[id]? := by
  induction places generalizing nodes with
  | nil => rfl
  | cons p places ih =>
    obtain ⟨hp, h⟩ := not_or.1 (mt List.mem_cons.2 h)
    rw [List.foldl_cons, ih h, getElem?_place_of_ne nodes (Ne.symm hp)]

theorem foldl_place_of_mem (distinct : (places.map (·.1)).Nodup)
    {h : NodeId × Option NodeId × Bool} (hm : h ∈ places) (nodes : Array Node) :
    (places.foldl place nodes)[h.1]? = nodes[h.1]?.map (settled h) := by
  induction places generalizing nodes with
  | nil => cases hm
  | cons p places ih =>
    obtain ⟨hp, distinct⟩ := List.nodup_cons.1 distinct
    rw [List.foldl_cons]
    rcases List.mem_cons.1 hm with rfl | hm
    · rw [foldl_place_of_not_mem hp, getElem?_place_self]
    · have other : p.1 ≠ h.1 := fun same => hp (List.mem_map.2 ⟨h, hm, same.symm⟩)
      rw [ih distinct hm, getElem?_place_of_ne nodes other]

end place

/-- A node hands something to each of its parts. -/
theorem handedDown_perm (n : Node) : ((handedDown n).map (·.1)).Perm n.shape.children := by
  unfold handedDown
  split
  · rename_i hs
    rw [hs]
    exact List.Perm.swap _ _ _
  · rename_i hs
    rw [hs]
    exact .refl _
  · rw [List.map_map]
    exact .of_eq (List.map_id _)

section placeChildren

variable {nodes : Array Node} {id c : NodeId}

theorem placeChildren_of_not_mem (h : c ∉ (Tree.mk nodes 0).children id) :
    (placeChildren nodes id)[c]? = nodes[c]? := by
  unfold placeChildren
  split
  · rename_i n hn
    refine foldl_place_of_not_mem (fun hm => h ?_) nodes
    rw [children_eq hn]
    exact (handedDown_perm n).mem_iff.1 hm
  · rfl

theorem placeChildren_of_mem {n : Node} (hn : nodes[id]? = some n)
    (distinct : ((Tree.mk nodes 0).children id).Nodup) {h : NodeId × Option NodeId × Bool}
    (hm : h ∈ handedDown n) : (placeChildren nodes id)[h.1]? = nodes[h.1]?.map (settled h) := by
  rw [children_eq hn, ← (handedDown_perm n).nodup_iff] at distinct
  simp only [placeChildren, hn]
  exact foldl_place_of_mem distinct hm nodes

end placeChildren

/-- The rows below `k` hand their settings down, the last one first. -/
def handDown (k : Nat) (nodes : Array Node) : Array Node :=
  (List.range k).reverse.foldl placeChildren nodes

theorem handDown_succ (k : Nat) (nodes : Array Node) :
    handDown (k + 1) nodes = handDown k (placeChildren nodes k) := by
  rw [handDown, List.range_succ, List.reverse_append, List.reverse_singleton,
    List.singleton_append, List.foldl_cons]
  rfl

section handDown

variable {nodes : Array Node} {k : Nat} {c : NodeId}

theorem children_placeChildren (nodes : Array Node) (id j : NodeId) :
    (Tree.mk (placeChildren nodes id) 0).children j = (Tree.mk nodes 0).children j :=
  children_eq_of_shapes (shapes_placeChildren nodes id) 0 0

theorem handDown_of_not_mem (h : ∀ j < k, c ∉ (Tree.mk nodes 0).children j) :
    (handDown k nodes)[c]? = nodes[c]? := by
  induction k generalizing nodes with
  | zero => rfl
  | succ k ih =>
    rw [handDown_succ, ih fun j hj => ?_, placeChildren_of_not_mem (h k (Nat.lt_succ_self k))]
    rw [children_placeChildren]
    exact h j (Nat.lt_succ_of_lt hj)

/-- What a row hands down at the end of the pass is what its parts have. -/
theorem handDown_of_mem (down : ∀ j, ∀ c ∈ (Tree.mk nodes 0).children j, c < j)
    (unique : ∀ i j c, c ∈ (Tree.mk nodes 0).children i → c ∈ (Tree.mk nodes 0).children j → i = j)
    (distinct : ∀ j, ((Tree.mk nodes 0).children j).Nodup) {p : NodeId} (hp : p < k) {n : Node}
    (hn : (handDown k nodes)[p]? = some n) {h : NodeId × Option NodeId × Bool}
    (hm : h ∈ handedDown n) : (handDown k nodes)[h.1]? = nodes[h.1]?.map (settled h) := by
  induction k generalizing nodes with
  | zero => cases hp
  | succ k ih =>
    have part {n : Node} {id : NodeId} (hn : (handDown k (placeChildren nodes k))[id]? = some n)
        (hm : h ∈ handedDown n) : h.1 ∈ (Tree.mk nodes 0).children id := by
      have same : shapes (handDown k (placeChildren nodes k)) = shapes nodes := by
        rw [handDown, shapes_foldl_placeChildren, shapes_placeChildren]
      rw [← children_eq_of_shapes same 0 0, children_eq hn]
      exact (handedDown_perm n).mem_iff.1 (List.mem_map_of_mem hm)
    rw [handDown_succ] at hn ⊢
    rcases Nat.lt_succ_iff_lt_or_eq.1 hp with hlt | rfl
    · rw [ih (by simpa only [children_placeChildren] using down)
        (by simpa only [children_placeChildren] using unique)
        (by simpa only [children_placeChildren] using distinct) hlt hn, placeChildren_of_not_mem]
      exact fun hc => Nat.ne_of_lt hlt (unique _ _ _ (part hn hm) hc)
    · -- the row itself is not written any more, so it hands down what it has now
      have final : (handDown p (placeChildren nodes p))[p]? = nodes[p]? := by
        rw [handDown_of_not_mem fun j hj => ?_, placeChildren_of_not_mem]
        · exact fun hc => Nat.lt_irrefl _ (down p p hc)
        · rw [children_placeChildren]
          exact fun hc => Nat.lt_asymm hj (down j p hc)
      have mem := part hn hm
      rw [final] at hn
      rw [handDown_of_not_mem fun j hj => ?_, placeChildren_of_mem hn (distinct p) hm]
      rw [children_placeChildren]
      exact fun hc => Nat.ne_of_lt hj (unique _ _ _ hc mem)

end handDown

namespace Whole

variable {t : Tree}

theorem withScopes_root (h : t.Whole) :
    ∃ n, t.withScopes.nodes[t.root]? = some n ∧ n.scope = none ∧ n.direct = false := by
  have kept : t.withScopes.nodes[t.root]? = (place t.nodes (t.root, none, false))[t.root]? := by
    refine handDown_of_not_mem fun j _ hc => h.root_not_mem j ?_
    rwa [children_eq_of_shapes (shapes_place _ _) 0 t.root] at hc
  obtain ⟨n, found⟩ : ∃ n, t.nodes[t.root]? = some n := ⟨_, Array.getElem?_eq_getElem h.root_lt⟩
  rw [getElem?_place_self t.nodes (t.root, none, false), found] at kept
  exact ⟨_, kept, rfl, rfl⟩

/-- After the pass, every part has what its whole hands down. -/
theorem withScopes_part (h : t.Whole) {p : NodeId} {n : Node}
    (hn : t.withScopes.nodes[p]? = some n) {part : NodeId × Option NodeId × Bool}
    (hm : part ∈ handedDown n) :
    ∃ m, t.withScopes.nodes[part.1]? = some m ∧ m.scope = part.2.1 ∧ m.direct = part.2.2 := by
  have parts (j : NodeId) : (Tree.mk (place t.nodes (t.root, none, false)) 0).children j =
      t.children j := children_eq_of_shapes (shapes_place _ _) 0 t.root
  have whole := h.withScopes
  have mem : part.1 ∈ t.withScopes.children p := by
    rw [children_eq hn]
    exact (handedDown_perm n).mem_iff.1 (List.mem_map_of_mem hm)
  have size : t.withScopes.size = t.size := size_eq_of_shapes (shapes_withScopes t)
  have hp : p < t.size := size ▸ lt_size_of_mem_children mem
  have written : t.withScopes.nodes[part.1]? =
      (place t.nodes (t.root, none, false))[part.1]?.map (settled part) := handDown_of_mem
    (fun j c hc => h.downward.lt (parts j ▸ hc))
    (fun i j c hi hj => h.parent_unique (parts i ▸ hi) (parts j ▸ hj))
    (fun j => by rw [parts]; exact h.children_distinct j) hp hn hm
  obtain ⟨m, hm'⟩ : ∃ m, t.withScopes.nodes[part.1]? = some m :=
    ⟨_, Array.getElem?_eq_getElem (Nat.lt_trans (whole.downward.lt mem) (lt_size_of_mem_children mem))⟩
  obtain ⟨m', -, rfl⟩ := Option.map_eq_some_iff.1 (written.symm.trans hm')
  exact ⟨_, hm', rfl, rfl⟩

end Whole

end InventoryQuery.Tree
