import InventoryQuery.Proofs.Grammar.Acceptance
import InventoryQuery.Proofs.Tree.Parents

/-! Every tree that is accepted is a proper table: one tree, each row a part of one other, and
nothing left over. -/

namespace InventoryQuery

namespace Tree

structure WellFormed (t : Tree) : Prop where
  root : t.root + 1 = t.size
  downward : ∀ id, ∀ child ∈ t.children id, child < id
  /-- Every node but the root is a part of one node, once. -/
  parent : ∀ id < t.size, id ≠ t.root → ∃ p, (t.children p).count id = 1 ∧
    ∀ q, id ∈ t.children q → q = p
  preorder_perm : t.preorder.Perm t.ids
  preorder_order : ∀ id, ∀ child ∈ t.children id, t.preorder.idxOf id < t.preorder.idxOf child
  parents_size : t.parents.size = t.size
  parents_child : ∀ id, ∀ child ∈ t.children id, t.parents[child]? = some (some id)
  parents_root : ∀ id < t.size, t.parents[id]? = some none ↔ id = t.root
  lists : ∀ n ∈ t.nodes.toList, n.shape.Proper
  height : t.rootExpr.height ≤ Grammar.maxHeight

/-- The last row is part of no other. -/
theorem Whole.root_eq {t : Tree} (h : t.Whole) : t.root + 1 = t.size := by
  refine Nat.le_antisymm h.root_lt (Nat.not_lt.1 fun hlt => ?_)
  have last : t.size - 1 < t.size := Nat.sub_one_lt_of_lt hlt
  obtain ⟨p, hp⟩ := h.exists_parent last (Nat.ne_of_gt (Nat.lt_sub_of_add_lt hlt))
  exact absurd (lt_size_of_mem_children hp) (Nat.not_lt.2 (Nat.le_of_pred_lt (h.downward.lt hp)))

end Tree

theorem parse_wellFormed (text : List Char) (t : Tree) (h : parse text = .ok t) : t.WellFormed := by
  obtain ⟨n, -, height, -, s, holds, nodes⟩ := derives_of_parse h
  have whole := whole_of_parse h
  exact {
    root := whole.root_eq
    downward := fun id child => whole.downward.lt
    parent := fun id => whole.parent_once
    preorder_perm := whole.preorder_perm
    preorder_order := fun id child => whole.idxOf_lt
    parents_size := t.size_parents
    parents_child := fun id child => whole.parents_child
    parents_root := fun id => whole.parents_root_iff
    lists := nodes ▸ holds.proper
    height := height }

theorem parse_wellFormed_arrow :
    let text := ['a', ' ', '-', '>', ' ', 'b', ';', '1']
    let t : Tree := ⟨#[⟨.phrase "a" none, ⟨0, 1⟩, none, false⟩,
      ⟨.phrase "b" none, ⟨5, 6⟩, none, false⟩, ⟨.property 1 0, ⟨0, 6⟩, none, false⟩,
      ⟨.number "1", ⟨7, 8⟩, none, false⟩, ⟨.collection [2, 3], ⟨0, 8⟩, none, false⟩], 4⟩
    parse text = .ok t ∧ t.WellFormed := by
  intro text t
  have accepted : parse text = .ok t := by rfl
  exact ⟨accepted, parse_wellFormed text t accepted⟩

end InventoryQuery
