import Mathlib.Data.List.Perm.Basic
import InventoryQuery.Proofs.Tree.Receiver

/-! An order of the nodes in which every node comes after its parts and after its receiver: a whole
comes after its parts, and of those the source of a property comes before its accessor and what is
filtered before the filter. A node lies below an accessor or a filter if it has a receiver at all,
and then that stands in the part before. -/

namespace InventoryQuery

namespace Shape

variable {α β : Type}

/-- The parts, the source of a property first. -/
def sourceFirst : Shape α → List α
  | property accessor source => [source, accessor]
  | s => s.children

theorem sourceFirst_perm (s : Shape α) : s.sourceFirst.Perm s.children := by
  cases s with
  | property accessor source => exact .swap _ _ _
  | _ => exact .refl _

theorem sourceFirst_map (f : α → β) (s : Shape α) :
    (s.map f).sourceFirst = s.sourceFirst.map f := by
  cases s with
  | phrase name argument => cases argument <;> rfl
  | _ => rfl

end Shape

namespace Tree

/-- The subtree of a node, with the node at its end. -/
def orderOf (t : Tree) (id : NodeId) : List NodeId :=
  result (fun id s => s.sourceFirst.flatten ++ [id]) t.nodes id

section orderOf

variable {t : Tree} {id x y : NodeId}

theorem orderOf_eq (h : Downward t.nodes) {n : Node} (hn : t.nodes[id]? = some n) :
    t.orderOf id = n.shape.sourceFirst.flatMap t.orderOf ++ [id] := by
  unfold orderOf
  rw [result_eq _ h hn, Shape.sourceFirst_map, List.flatMap_def]

theorem orderOf_perm (h : Downward t.nodes) (hid : id < t.size) :
    (t.orderOf id).Perm (t.preorderOf id) := by
  induction id using Nat.strongRecOn with
  | ind id ih =>
    obtain ⟨n, hn⟩ : ∃ n, t.nodes[id]? = some n := ⟨_, Array.getElem?_eq_getElem hid⟩
    rw [orderOf_eq h hn, preorderOf_eq h hid, children_eq hn]
    have parts : (n.shape.children.flatMap t.orderOf).Perm (n.shape.children.flatMap t.preorderOf) :=
      .flatMap_left _ fun c hc => ih c (h id n hn c hc) (Nat.lt_trans (h id n hn c hc) hid)
    refine (List.perm_append_singleton _ _).trans (.cons _ ?_)
    exact (n.shape.sourceFirst_perm.flatMap_right _).trans parts

theorem mem_orderOf_self (h : Downward t.nodes) (hid : id < t.size) : id ∈ t.orderOf id := by
  rw [orderOf_eq h (Array.getElem?_eq_getElem hid)]
  exact List.mem_append_right _ (List.mem_singleton.2 rfl)

theorem orderOf_sublist (h : Downward t.nodes) {p : NodeId} (hc : x ∈ t.children p) :
    (t.orderOf x).Sublist (t.orderOf p) := by
  obtain ⟨n, hn, hc⟩ := exists_of_mem_children hc
  rw [orderOf_eq h hn]
  refine .trans ?_ (List.sublist_append_left _ _)
  rw [List.flatMap_def]
  exact List.sublist_flatten_of_mem (List.mem_map_of_mem (n.shape.sourceFirst_perm.mem_iff.2 hc))

/-- Whatever lies below a node comes before it. -/
theorem below_sublist (h : Downward t.nodes) {p : NodeId} (hc : x ∈ t.children p)
    (hy : y ∈ t.orderOf x) : [y, p].Sublist (t.orderOf p) := by
  obtain ⟨n, hn, hc⟩ := exists_of_mem_children hc
  rw [orderOf_eq h hn]
  have inside : y ∈ n.shape.sourceFirst.flatMap t.orderOf :=
    List.mem_flatMap.2 ⟨x, n.shape.sourceFirst_perm.mem_iff.2 hc, hy⟩
  exact (List.singleton_sublist.2 inside).append (.refl [p])

/-- The receiver and the accessor or filter that the step leaves are the two parts of the whole. -/
theorem sourceFirst_of_receiver? {q p s : NodeId} (hr : t.receiver? (q, p) = some s) :
    ∃ n, t.nodes[p]? = some n ∧ n.shape.sourceFirst = [s, q] := by
  cases hn : t.nodes[p]? with
  | none => simp [receiver?, shape?, hn] at hr
  | some n =>
    simp only [receiver?, shape?, hn, Option.map_some] at hr
    refine ⟨n, rfl, ?_⟩
    cases hs : n.shape with
    | property accessor source =>
      obtain ⟨rfl, rfl⟩ : q = accessor ∧ source = s := by simpa [hs] using hr
      rfl
    | whose source filter =>
      obtain ⟨rfl, rfl⟩ : q = filter ∧ source = s := by simpa [hs] using hr
      rfl
    | _ => simp [hs] at hr

/-- The receiver comes before whatever lies below the accessor or the filter. -/
theorem receiver_sublist (h : Downward t.nodes) {q p s : NodeId}
    (hr : t.receiver? (q, p) = some s) (hx : x ∈ t.orderOf q) :
    [s, x].Sublist (t.orderOf p) := by
  obtain ⟨n, hn, parts⟩ := sourceFirst_of_receiver? hr
  have part : s ∈ n.shape.children := n.shape.sourceFirst_perm.mem_iff.1 (by simp [parts])
  have lt : s < t.size := Nat.lt_trans (h p n hn s part) (Array.getElem?_eq_some_iff.1 hn).1
  rw [orderOf_eq h hn, parts]
  refine .trans ?_ (List.sublist_append_left _ _)
  simp only [List.flatMap_cons, List.flatMap_nil, List.append_nil]
  exact (List.singleton_sublist.2 (mem_orderOf_self h lt)).append (List.singleton_sublist.2 hx)

/-- The subtree of a node holds the parts of whatever it holds. -/
theorem children_mem_orderOf (h : Downward t.nodes) (hid : id < t.size) {child : NodeId}
    (hx : x ∈ t.orderOf id) (hc : child ∈ t.children x) : child ∈ t.orderOf id := by
  rw [(orderOf_perm h hid).mem_iff] at hx ⊢
  exact children_mem_preorderOf h hid hx hc

end orderOf

/-- All nodes of the tree, each after its parts and its receiver. -/
def order (t : Tree) : List NodeId := t.orderOf t.root

def Before (t : Tree) (x y : NodeId) : Prop := t.order.idxOf x < t.order.idxOf y

theorem Before.trans {t : Tree} {x y z : NodeId} (hx : t.Before x y) (hy : t.Before y z) :
    t.Before x z := Nat.lt_trans hx hy

theorem before_wf (t : Tree) : WellFounded t.Before := InvImage.wf t.order.idxOf Nat.lt_wfRel.wf

theorem idxOf_lt_of_sublist {x y : NodeId} {l : List NodeId} (distinct : l.Nodup)
    (h : [x, y].Sublist l) : l.idxOf x < l.idxOf y := by
  induction l with
  | nil => cases h
  | cons a l ih =>
    obtain ⟨ha, distinct⟩ := List.nodup_cons.1 distinct
    cases h with
    | cons _ h =>
      have hx : a ≠ x := fun same => ha (same ▸ h.subset List.mem_cons_self)
      have hy : a ≠ y := fun same => ha (same ▸ h.subset (by simp))
      rw [List.idxOf_cons_ne _ hx, List.idxOf_cons_ne _ hy]
      exact Nat.succ_lt_succ (ih distinct h)
    | cons_cons _ h =>
      have hy : x ≠ y := fun same => ha (same ▸ h.subset List.mem_cons_self)
      rw [List.idxOf_cons_self, List.idxOf_cons_ne _ hy]
      exact Nat.succ_pos _

namespace Whole

variable {t : Tree} {id x y : NodeId}

theorem order_perm (h : t.Whole) : t.order.Perm t.ids :=
  (orderOf_perm h.downward h.root_lt).trans h.preorder_perm

theorem order_nodup (h : t.Whole) : t.order.Nodup :=
  h.order_perm.nodup_iff.2 List.nodup_range

theorem idxOf_order_lt (h : t.Whole) (hid : id < t.size) : t.order.idxOf id < t.size := by
  have len : t.order.length = t.size := by rw [h.order_perm.length_eq, ids, List.length_range]
  exact len ▸ List.idxOf_lt_length_of_mem (h.order_perm.mem_iff.2 (List.mem_range.2 hid))

theorem orderOf_sublist_order (h : t.Whole) {steps : List (NodeId × NodeId)}
    (path : t.Path id steps) : (t.orderOf id).Sublist t.order := by
  induction path with
  | root => exact .refl _
  | up hc _ ih => exact (orderOf_sublist h.downward hc).trans ih

theorem preorderOf_nodup (h : t.Whole) (hid : id < t.size) : (t.preorderOf id).Nodup := by
  obtain ⟨steps, path⟩ := h.exists_path hid
  exact (orderOf_perm h.downward hid).nodup_iff.1 (h.order_nodup.sublist (h.orderOf_sublist_order path))

theorem before_of_sublist (h : t.Whole) (hid : id < t.size) (hs : [x, y].Sublist (t.orderOf id)) :
    t.Before x y := by
  obtain ⟨steps, path⟩ := h.exists_path hid
  exact idxOf_lt_of_sublist h.order_nodup (hs.trans (h.orderOf_sublist_order path))

theorem before_of_mem_children (h : t.Whole) (hc : x ∈ t.children y) : t.Before x y := by
  have hy := lt_size_of_mem_children hc
  exact h.before_of_sublist hy (below_sublist h.downward hc
    (mem_orderOf_self h.downward (Nat.lt_trans (h.downward.lt hc) hy)))

/-- The subtree of every node on the way up holds the node where the way starts. -/
theorem mem_orderOf_of_path (h : t.Whole) {steps : List (NodeId × NodeId)}
    (path : t.Path id steps) (hid : id < t.size) {step : NodeId × NodeId} (hs : step ∈ steps) :
    id ∈ t.orderOf step.1 ∧ step.1 < t.size ∧ step.2 < t.size := by
  induction path with
  | root => cases hs
  | @up child parent steps hc path ih =>
    rcases List.mem_cons.1 hs with rfl | hs
    · exact ⟨mem_orderOf_self h.downward hid, hid, lt_size_of_mem_children hc⟩
    · obtain ⟨mem, below, above⟩ := ih (lt_size_of_mem_children hc) hs
      exact ⟨children_mem_orderOf h.downward below mem hc, below, above⟩

/-- The first receiver that the way up gives comes before the node. -/
theorem before_of_receiver (h : t.Whole) {steps : List (NodeId × NodeId)} (path : t.Path id steps)
    (hid : id < t.size) (hx : steps.findSome? t.receiver? = some x) : x < t.size ∧ t.Before x id := by
  obtain ⟨⟨q, p⟩, hs, hr⟩ := List.exists_of_findSome?_eq_some hx
  obtain ⟨mem, -, lt⟩ := h.mem_orderOf_of_path path hid hs
  obtain ⟨n, hn, parts⟩ := sourceFirst_of_receiver? hr
  have part : x ∈ n.shape.children := n.shape.sourceFirst_perm.mem_iff.1 (by simp [parts])
  exact ⟨Nat.lt_trans (h.downward p n hn x part) lt,
    h.before_of_sublist lt (receiver_sublist h.downward hr mem)⟩

end Whole

end Tree

end InventoryQuery
