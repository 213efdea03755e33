import InventoryQuery.Proofs.Tree.Preorder

/-! Every row but the root is a part of one row, and `parents` finds it. -/

namespace InventoryQuery.Tree

theorem children_push_lt {nodes : Array Node} {n : Node} {root id : NodeId}
    (hid : id < nodes.size) :
    (Tree.mk (nodes.push n) root).children id = (Tree.mk nodes root).children id := by
  rw [children_eq (n := nodes[id]) (by simp [Array.getElem?_push_lt hid]),
    children_eq (Array.getElem?_eq_getElem hid)]

theorem allChildren_eq (t : Tree) : allChildren t.nodes = t.ids.flatMap t.children := by
  obtain ⟨nodes, root⟩ := t
  induction nodes using rows_induction with
  | empty => rfl
  | push nodes n ih =>
    have row : (Tree.mk (nodes.push n) root).children nodes.size = n.shape.children :=
      children_eq (by simp)
    have rows : (List.range nodes.size).flatMap
        (Tree.mk (nodes.push n) root).children = allChildren nodes := by
      rw [ih]
      exact List.flatMap_congr fun id hid => children_push_lt (List.mem_range.1 hid)
    simp only [ids, size, Array.size_push, List.range_succ, List.flatMap_append,
      List.flatMap_singleton, row, rows, allChildren_push]

namespace Whole

variable {t : Tree}

theorem children_nodup (h : t.Whole) : (t.ids.flatMap t.children).Nodup := by
  rw [← allChildren_eq]
  exact (List.nodup_append.1 (h.covers.nodup_iff.2 List.nodup_range)).1

theorem parent_unique (h : t.Whole) {p q child : NodeId} (hp : child ∈ t.children p)
    (hq : child ∈ t.children q) : p = q := by
  have disjoint := List.pairwise_iff_getElem.1 (List.nodup_flatMap.1 h.children_nodup).2
  have apart {a b : NodeId} (ha : child ∈ t.children a) (hb : child ∈ t.children b) : ¬ a < b := by
    intro hlt
    have := disjoint a b (by simpa [ids] using lt_size_of_mem_children ha)
      (by simpa [ids] using lt_size_of_mem_children hb) hlt
    simp only [ids, List.getElem_range] at this
    exact this ha hb
  exact Nat.le_antisymm (Nat.not_lt.1 (apart hq hp)) (Nat.not_lt.1 (apart hp hq))

theorem count_children (h : t.Whole) {p child : NodeId} (hp : child ∈ t.children p) :
    (t.children p).count child = 1 := by
  have := (List.nodup_flatMap.1 h.children_nodup).1 p
    (List.mem_range.2 (lt_size_of_mem_children hp))
  exact List.count_eq_one_of_mem this hp

theorem children_distinct (h : t.Whole) (id : NodeId) : (t.children id).Nodup := by
  by_cases hid : id < t.size
  · exact (List.nodup_flatMap.1 h.children_nodup).1 id (List.mem_range.2 hid)
  · rw [List.eq_nil_iff_forall_not_mem.2 fun c hc => hid (lt_size_of_mem_children hc)]
    exact .nil

theorem exists_parent (h : t.Whole) {id : NodeId} (hid : id < t.size) (hr : id ≠ t.root) :
    ∃ p, id ∈ t.children p := by
  have mem := h.covers.mem_iff.2 (List.mem_range.2 hid)
  rw [allChildren_eq, List.mem_append, List.mem_singleton, List.mem_flatMap] at mem
  obtain ⟨p, -, hp⟩ := mem.resolve_right hr
  exact ⟨p, hp⟩

/-- Every row but the root is a part of one row, once. -/
theorem parent_once (h : t.Whole) {id : NodeId} (hid : id < t.size) (hr : id ≠ t.root) :
    ∃ p, (t.children p).count id = 1 ∧ ∀ q, id ∈ t.children q → q = p := by
  obtain ⟨p, hp⟩ := h.exists_parent hid hr
  exact ⟨p, h.count_children hp, fun q hq => h.parent_unique hq hp⟩

theorem root_not_mem (h : t.Whole) (id : NodeId) : t.root ∉ t.children id := by
  intro hc
  have nodup := h.covers.nodup_iff.2 List.nodup_range
  have disjoint := (List.nodup_append.1 nodup).2.2
  rw [allChildren_eq] at disjoint
  exact disjoint t.root (List.mem_flatMap.2
    ⟨id, List.mem_range.2 (lt_size_of_mem_children hc), hc⟩) t.root
    (List.mem_singleton.2 rfl) rfl

/-- A subtree with a part is that part, or it has the whole in it. -/
theorem mem_preorderOf_iff (h : t.Whole) {p child id : NodeId} (hc : child ∈ t.children p) (hid : id < t.size) :
    child ∈ t.preorderOf id ↔ child = id ∨ p ∈ t.preorderOf id := by
  constructor
  · induction id using Nat.strongRecOn with
    | ind id ih =>
      intro hm
      rw [preorderOf_eq h.downward hid, List.mem_cons, List.mem_flatMap] at hm
      rcases hm with top | ⟨part, hp, hm⟩
      · exact .inl top
      have lt := h.downward.lt hp
      rcases ih part lt (Nat.lt_trans lt hid) hm with rfl | inside
      · rw [h.parent_unique hc hp]
        exact .inr (mem_preorderOf_self h.downward hid)
      · exact .inr (preorderOf_subset h.downward hp inside)
  · intro either
    rcases either with rfl | inside
    · exact mem_preorderOf_self h.downward hid
    · exact children_mem_preorderOf h.downward hid inside hc

end Whole

def link (table : Array (Option NodeId)) (e : NodeId × NodeId) : Array (Option NodeId) :=
  table.setIfInBounds e.1 (some e.2)

def links (t : Tree) : List (NodeId × NodeId) :=
  t.preorder.flatMap fun id => (t.children id).map (·, id)

theorem parents_eq (t : Tree) : t.parents = t.links.foldl link (.replicate t.size none) := by
  rw [links, List.foldl_flatMap, parents]
  simp only [List.foldl_map, link]

theorem mem_links {t : Tree} {child p : NodeId} :
    (child, p) ∈ t.links ↔ p ∈ t.preorder ∧ child ∈ t.children p := by
  simp [links]

theorem size_foldl_link (pairs : List (NodeId × NodeId)) (table : Array (Option NodeId)) :
    (pairs.foldl link table).size = table.size := by
  induction pairs generalizing table with
  | nil => rfl
  | cons e pairs ih => rw [List.foldl_cons, ih, link, Array.size_setIfInBounds]

theorem size_parents (t : Tree) : t.parents.size = t.size := by
  rw [parents_eq, size_foldl_link, Array.size_replicate]

theorem foldl_link_of_not_mem {pairs : List (NodeId × NodeId)} {k : NodeId}
    (h : ∀ v, (k, v) ∉ pairs) (table : Array (Option NodeId)) :
    (pairs.foldl link table)[k]? = table[k]? := by
  induction pairs generalizing table with
  | nil => rfl
  | cons e pairs ih =>
    have other : e.1 ≠ k := fun he => h e.2 (by rw [← he]; exact List.mem_cons_self)
    rw [List.foldl_cons, ih fun v hv => h v (List.mem_cons_of_mem e hv), link,
      Array.getElem?_setIfInBounds_ne other]

/-- What is written in one place only stays there. -/
theorem foldl_link_of_mem {pairs : List (NodeId × NodeId)} {k v : NodeId} (h : (k, v) ∈ pairs)
    (unique : ∀ w, (k, w) ∈ pairs → w = v) {table : Array (Option NodeId)} (hk : k < table.size) :
    (pairs.foldl link table)[k]? = some (some v) := by
  induction pairs generalizing table with
  | nil => cases h
  | cons e pairs ih =>
    by_cases again : (k, v) ∈ pairs
    · exact ih again (fun w hw => unique w (List.mem_cons_of_mem e hw))
        (by rwa [link, Array.size_setIfInBounds])
    · cases (List.mem_cons.1 h).resolve_right again
      have last (w : NodeId) : (k, w) ∉ pairs :=
        fun hw => again (unique w (List.mem_cons_of_mem _ hw) ▸ hw)
      rw [List.foldl_cons, foldl_link_of_not_mem last, link,
        Array.getElem?_setIfInBounds_self_of_lt hk]

namespace Whole

variable {t : Tree}

theorem parents_child (h : t.Whole) {id child : NodeId} (hc : child ∈ t.children id) :
    t.parents[child]? = some (some id) := by
  have hid := lt_size_of_mem_children hc
  rw [parents_eq]
  refine foldl_link_of_mem (mem_links.2 ⟨h.mem_preorder.2 hid, hc⟩)
    (fun w hw => h.parent_unique (mem_links.1 hw).2 hc) ?_
  rw [Array.size_replicate]
  exact Nat.lt_trans (h.downward.lt hc) hid

theorem parents_root (h : t.Whole) : t.parents[t.root]? = some none := by
  rw [parents_eq, foldl_link_of_not_mem fun v hv => h.root_not_mem v (mem_links.1 hv).2]
  simp [h.root_lt]

theorem parents_root_iff (h : t.Whole) {id : NodeId} (hid : id < t.size) :
    t.parents[id]? = some none ↔ id = t.root := by
  constructor
  · intro top
    by_contra hr
    obtain ⟨p, hp⟩ := h.exists_parent hid hr
    cases top.symm.trans (h.parents_child hp)
  · intro hr
    rw [hr]
    exact h.parents_root

theorem mem_children_of_parents (h : t.Whole) {id p : NodeId} (hid : id < t.size)
    (hp : t.parents[id]? = some (some p)) : id ∈ t.children p := by
  have below : id ≠ t.root := by
    rintro rfl
    cases hp.symm.trans h.parents_root
  obtain ⟨q, hq⟩ := h.exists_parent hid below
  cases hp.symm.trans (h.parents_child hq)
  exact hq

end Whole

end InventoryQuery.Tree
