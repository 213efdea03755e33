import InventoryQuery.Tree.Table

/-! Working through a table from the first row on. Rows that are added do not change what the rows
before them give, and where every part has a smaller number than the whole, the result for a row is
made of the results for its parts. -/

namespace InventoryQuery

namespace Shape

variable {α β γ : Type}

theorem map_congr {f g : α → β} {s : Shape α} (h : ∀ a ∈ s.children, f a = g a) :
    s.map f = s.map g := by
  cases s with
  | phrase name argument => cases argument <;> simp_all [map, children]
  | _ => simp_all [map, children]

theorem map_map (f : α → β) (g : β → γ) (s : Shape α) : (s.map f).map g = s.map (g ∘ f) := by
  cases s <;> simp [map]

end Shape

namespace Tree

/-- A table grows by a row at its end. -/
theorem rows_induction {motive : Array Node → Prop} (empty : motive #[])
    (push : ∀ nodes n, motive nodes → motive (nodes.push n)) (nodes : Array Node) :
    motive nodes := by
  induction hs : nodes.size generalizing nodes with
  | zero => rwa [Array.eq_empty_of_size_eq_zero hs]
  | succ k ih =>
    obtain ⟨front, n, rfl⟩ := Array.exists_push_of_size_eq_add_one hs
    exact push front n (ih front (by simpa using hs))

/-- Every part has a smaller number than the whole. -/
def Downward (nodes : Array Node) : Prop :=
  ∀ (id : NodeId) (n : Node), nodes[id]? = some n → ∀ child ∈ n.shape.children, child < id

theorem Downward.of_push {nodes : Array Node} {n : Node} (h : Downward (nodes.push n)) :
    Downward nodes := by
  intro id m hm
  have : id < nodes.size := (Array.getElem?_eq_some_iff.1 hm).1
  exact h id m (by rwa [Array.getElem?_push_lt this, ← Array.getElem?_eq_getElem this])

theorem Downward.children_lt_of_push {nodes : Array Node} {n : Node} (h : Downward (nodes.push n)) :
    ∀ child ∈ n.shape.children, child < nodes.size := h nodes.size n Array.getElem?_push_size

section fold

variable {β : Type} [Inhabited β] (f : NodeId → Shape β → β)

def result (nodes : Array Node) (id : NodeId) : β := ((Tree.mk nodes 0).foldUp f)[id]?.getD default

theorem foldUp_push (nodes : Array Node) (n : Node) :
    (Tree.mk (nodes.push n) 0).foldUp f =
      ((Tree.mk nodes 0).foldUp f).push
        (f ((Tree.mk nodes 0).foldUp f).size (n.shape.map (result f nodes))) := by
  simp only [foldUp, Array.foldl_push]
  rfl

theorem size_foldUp (nodes : Array Node) : ((Tree.mk nodes 0).foldUp f).size = nodes.size := by
  induction nodes using rows_induction with
  | empty => rfl
  | push nodes n ih => rw [foldUp_push, Array.size_push, Array.size_push, ih]

theorem result_push_lt {nodes : Array Node} {n : Node} {id : NodeId} (h : id < nodes.size) :
    result f (nodes.push n) id = result f nodes id := by
  rw [result, foldUp_push, Array.getElem?_push, if_neg (by rw [size_foldUp]; exact Nat.ne_of_lt h),
    ← result]

theorem result_push_size (nodes : Array Node) (n : Node) :
    result f (nodes.push n) nodes.size = f nodes.size (n.shape.map (result f nodes)) := by
  rw [result, foldUp_push, ← size_foldUp f nodes, Array.getElem?_push_size, Option.getD_some]

/-- Each row gets what its parts get, put together. -/
theorem result_eq {nodes : Array Node} (h : Downward nodes) {id : NodeId} {n : Node}
    (hn : nodes[id]? = some n) : result f nodes id = f id (n.shape.map (result f nodes)) := by
  induction nodes using rows_induction with
  | empty => simp at hn
  | push nodes m ih =>
    have parts {k : NodeId} {shape : Shape NodeId}
        (hs : ∀ child ∈ shape.children, child < k) (hk : k ≤ nodes.size) :
        shape.map (result f (nodes.push m)) = shape.map (result f nodes) :=
      Shape.map_congr fun child hc => result_push_lt f (Nat.lt_of_lt_of_le (hs child hc) hk)
    rw [Array.getElem?_push] at hn
    split at hn
    · cases hn
      subst id
      rw [result_push_size, parts h.children_lt_of_push (Nat.le_refl _)]
    · have hid : id < nodes.size := (Array.getElem?_eq_some_iff.1 hn).1
      rw [result_push_lt f hid, ih h.of_push hn, parts (h.of_push id n hn) (Nat.le_of_lt hid)]

end fold

section expr

variable {t : Tree} {id : NodeId}

theorem expr_eq (h : Downward t.nodes) {n : Node} (hn : t.nodes[id]? = some n) :
    t.expr id = .node (n.shape.map t.expr) := result_eq (fun _ s => Expr.node s) h hn

theorem expr_of_none (h : t.nodes[id]? = none) : t.expr id = default := by
  have beyond : t.exprs[id]? = none := by
    rw [Array.getElem?_eq_none_iff] at h ⊢
    exact (size_foldUp (fun _ s => Expr.node s) t.nodes).symm ▸ h
  rw [expr, beyond]
  rfl

end expr

theorem preorderOf_eq_result (t : Tree) (id : NodeId) :
    t.preorderOf id = result (fun id s => id :: s.children.flatten) t.nodes id := rfl

end Tree

end InventoryQuery
