import Mathlib.Data.List.Nodup
import InventoryQuery.Proofs.Tree.Forest

/-! Walking the trees of a forest. The walks from the roots together meet every row once, and a row
is met before its parts: a part that stood before its whole would be met twice, since the walk from
the whole meets it again. -/

namespace InventoryQuery.Tree

theorem children_eq {t : Tree} {id : NodeId} {n : Node} (hn : t.nodes[id]? = some n) :
    t.children id = n.shape.children := by
  simp only [children, shape?, hn, Option.map_some, Option.getD_some]

theorem children_of_shape? {t : Tree} {id : NodeId} {s : Shape NodeId} (h : t.shape? id = some s) :
    t.children id = s.children := by
  rw [children, h]
  rfl

theorem lt_size_of_shape? {t : Tree} {id : NodeId} {s : Shape NodeId} (h : t.shape? id = some s) : id < t.size := by
  obtain ⟨n, hn, -⟩ := Option.map_eq_some_iff.1 h
  exact (Array.getElem?_eq_some_iff.1 hn).1

theorem exists_of_mem_children {t : Tree} {id child : NodeId} (h : child ∈ t.children id) :
    ∃ n, t.nodes[id]? = some n ∧ child ∈ n.shape.children := by
  cases hn : t.nodes[id]? with
  | none => simp [children, shape?, hn] at h
  | some n => exact ⟨n, rfl, children_eq hn ▸ h⟩

theorem Downward.lt {t : Tree} (h : Downward t.nodes) {id child : NodeId}
    (hc : child ∈ t.children id) : child < id := by
  obtain ⟨n, hn, hc⟩ := exists_of_mem_children hc
  exact h id n hn child hc

theorem lt_size_of_mem_children {t : Tree} {id child : NodeId} (hc : child ∈ t.children id) :
    id < t.size := by
  obtain ⟨n, hn, -⟩ := exists_of_mem_children hc
  exact (Array.getElem?_eq_some_iff.1 hn).1

theorem preorderOf_eq {t : Tree} (h : Downward t.nodes) {id : NodeId} (hid : id < t.size) :
    t.preorderOf id = id :: (t.children id).flatMap t.preorderOf := by
  obtain ⟨n, hn⟩ : ∃ n, t.nodes[id]? = some n := ⟨_, Array.getElem?_eq_getElem hid⟩
  rw [preorderOf_eq_result, result_eq _ h hn, Shape.children_map, children_eq hn, List.flatMap_def]
  rfl

namespace Forest

variable {nodes : Array Node} {roots : List NodeId}

/-- The walks from the roots meet every row once. -/
theorem preorder_perm (h : Forest nodes roots) :
    (roots.flatMap (Tree.mk nodes 0).preorderOf).Perm (List.range nodes.size) := by
  induction nodes using rows_induction generalizing roots with
  | empty =>
    have := h.covers.length_eq
    simp only [List.length_append, List.length_range, Array.size_empty] at this
    cases List.eq_nil_of_length_eq_zero (l := roots) (by omega)
    exact .refl _
  | push nodes n ih =>
    obtain ⟨others, hr, hf⟩ := h.of_push
    have old {id : NodeId} (hid : id < nodes.size) :
        (Tree.mk (nodes.push n) 0).preorderOf id = (Tree.mk nodes 0).preorderOf id := by
      rw [preorderOf_eq_result, preorderOf_eq_result]
      exact result_push_lt _ hid
    have walks (ids : List NodeId) (hm : ∀ id ∈ ids, id < nodes.size) :
        ids.flatMap (Tree.mk (nodes.push n) 0).preorderOf =
          ids.flatMap (Tree.mk nodes 0).preorderOf :=
      List.flatMap_congr fun id hid => old (hm id hid)
    have row : (Tree.mk (nodes.push n) 0).preorderOf nodes.size =
        nodes.size :: n.shape.children.flatMap (Tree.mk nodes 0).preorderOf := by
      rw [preorderOf_eq h.downward (by simp [Tree.size]), children_eq (n := n) (by simp),
        walks _ h.downward.children_lt_of_push]
    refine (hr.flatMap_right _).trans ?_
    rw [List.flatMap_cons, row, walks _ fun id hid => hf.lt_size (List.mem_append_left _ hid),
      Array.size_push, List.range_succ]
    have parts := ih hf
    rw [List.flatMap_append] at parts
    exact ((List.perm_append_comm.trans parts).cons _).trans (List.perm_append_singleton _ _).symm

end Forest

/-- All rows hang together below the root. -/
def Whole (t : Tree) : Prop := Forest t.nodes [t.root]

namespace Whole

variable {t : Tree}

theorem downward (h : t.Whole) : Downward t.nodes := Forest.downward h

theorem root_lt (h : t.Whole) : t.root < t.size := Forest.lt_size h (List.mem_singleton.2 rfl)

theorem preorder_perm (h : t.Whole) : t.preorder.Perm t.ids := by
  have := Forest.preorder_perm h
  rwa [List.flatMap_singleton] at this

theorem preorder_nodup (h : t.Whole) : t.preorder.Nodup :=
  h.preorder_perm.nodup_iff.2 List.nodup_range

theorem mem_preorder (h : t.Whole) {id : NodeId} : id ∈ t.preorder ↔ id < t.size := by
  rw [h.preorder_perm.mem_iff]
  exact List.mem_range

end Whole

/-- What holds of a row and goes from a whole to its parts holds of all that the walk meets. -/
theorem forall_mem_preorderOf {t : Tree} (h : Downward t.nodes) {p : NodeId → Prop} {id : NodeId}
    (hid : id < t.size) (here : p id) (parts : ∀ x, p x → ∀ child ∈ t.children x, p child) :
    ∀ x ∈ t.preorderOf id, p x := by
  induction id using Nat.strongRecOn with
  | ind id ih =>
    intro x hx
    rw [preorderOf_eq h hid, List.mem_cons, List.mem_flatMap] at hx
    rcases hx with rfl | ⟨child, hc, hx⟩
    · exact here
    · have hlt := h.lt hc
      exact ih child hlt (Nat.lt_trans hlt hid) (parts id here child hc) x hx

theorem le_of_mem_preorderOf {t : Tree} (h : Downward t.nodes) {id x : NodeId} (hid : id < t.size)
    (hx : x ∈ t.preorderOf id) : x ≤ id :=
  forall_mem_preorderOf h (p := (· ≤ id)) hid (Nat.le_refl id)
    (fun _ hle _ hc => Nat.le_trans (Nat.le_of_lt (h.lt hc)) hle) x hx

theorem mem_preorderOf_self {t : Tree} (h : Downward t.nodes) {id : NodeId} (hid : id < t.size) :
    id ∈ t.preorderOf id := by
  rw [preorderOf_eq h hid]
  exact List.mem_cons_self

/-- All that the walk from a part meets, the walk from the whole meets. -/
theorem preorderOf_subset {t : Tree} (h : Downward t.nodes) {id child : NodeId} (hc : child ∈ t.children id) :
    t.preorderOf child ⊆ t.preorderOf id := by
  rw [preorderOf_eq h (lt_size_of_mem_children hc)]
  exact fun x hx => List.mem_cons_of_mem _ (List.mem_flatMap.2 ⟨child, hc, hx⟩)

/-- A walk that meets a row meets all that the walk from there meets. -/
theorem preorderOf_subset_of_mem {t : Tree} (h : Downward t.nodes) {id x : NodeId} (hid : id < t.size)
    (hx : x ∈ t.preorderOf id) : t.preorderOf x ⊆ t.preorderOf id :=
  forall_mem_preorderOf h (p := fun y => t.preorderOf y ⊆ t.preorderOf id) hid (List.Subset.refl _)
    (fun _ hy _ hc => List.Subset.trans (preorderOf_subset h hc) hy) x hx

/-- A walk that meets a row meets its parts. -/
theorem children_mem_preorderOf {t : Tree} (h : Downward t.nodes) {id x child : NodeId}
    (hid : id < t.size) (hx : x ∈ t.preorderOf id) (hc : child ∈ t.children x) :
    child ∈ t.preorderOf id :=
  preorderOf_subset_of_mem h hid hx
    (preorderOf_subset h hc (mem_preorderOf_self h (Nat.lt_trans (h.lt hc) (lt_size_of_mem_children hc))))

/-- In a walk that meets no row twice, no part stands before its whole. -/
theorem preorderOf_pairwise {t : Tree} (h : Downward t.nodes) {id : NodeId} (hid : id < t.size)
    (hn : (t.preorderOf id).Nodup) : (t.preorderOf id).Pairwise fun x y => x ∉ t.children y := by
  induction id using Nat.strongRecOn with
  | ind id ih =>
    rw [preorderOf_eq h hid] at hn ⊢
    obtain ⟨nodup, disjoint⟩ := List.nodup_flatMap.1 (List.nodup_cons.1 hn).2
    refine List.pairwise_cons.2 ⟨fun y hy hc => ?_,
      List.pairwise_flatMap.2 ⟨fun child hc => ?_, ?_⟩⟩
    · obtain ⟨child, hchild, hy⟩ := List.mem_flatMap.1 hy
      have hlt := h.lt hchild
      have := le_of_mem_preorderOf h (Nat.lt_trans hlt hid) hy
      exact Nat.lt_irrefl _ (Nat.lt_trans (h.lt hc) (Nat.lt_of_le_of_lt this hlt))
    · have hlt := h.lt hc
      exact ih child hlt (Nat.lt_trans hlt hid) (nodup child hc)
    · refine disjoint.imp_of_mem fun {a b} _ hb hd x hx y hy hc => ?_
      exact hd hx (children_mem_preorderOf h (Nat.lt_trans (h.lt hb) hid) hy hc)

theorem Whole.idxOf_lt {t : Tree} (h : t.Whole) {id child : NodeId} (hc : child ∈ t.children id) :
    t.preorder.idxOf id < t.preorder.idxOf child := by
  have hid := lt_size_of_mem_children hc
  have hlt := h.downward.lt hc
  have mem := h.mem_preorder.2 hid
  have mem' := h.mem_preorder.2 (Nat.lt_trans hlt hid)
  have pairwise : t.preorder.Pairwise fun x y => x ∉ t.children y :=
    preorderOf_pairwise h.downward h.root_lt h.preorder_nodup
  rcases Nat.lt_trichotomy (t.preorder.idxOf id) (t.preorder.idxOf child) with lt | eq | gt
  · exact lt
  · exact absurd ((List.idxOf_inj mem).1 eq).symm (Nat.ne_of_lt hlt)
  · have := List.pairwise_iff_getElem.1 pairwise _ _ (List.idxOf_lt_length_of_mem mem')
      (List.idxOf_lt_length_of_mem mem) gt
    rw [List.getElem_idxOf, List.getElem_idxOf] at this
    exact absurd hc this

end InventoryQuery.Tree
