import Mathlib.Data.List.Basic
import InventoryQuery.Grammar.Rules
import InventoryQuery.Proofs.Tree.Forest

/-! What the grammar has built so far. The open roots of the table, in the order in which they were
finished, are a stack: a rule leaves what is there and puts its own root on top, and entering a node
takes its parts from the top. Every statement carries the stack below it along, so that one
invariant does for all rules. -/

namespace InventoryQuery

namespace Expr

theorem foldl_max (xs : List Nat) (a : Nat) : xs.foldl max a = max a (xs.foldl max 0) := by
  induction xs generalizing a with
  | nil => simp
  | cons x xs ih => rw [List.foldl_cons, List.foldl_cons, ih, ih (max 0 x)]; omega

theorem heightOfAll_eq (es : List Expr) : heightOfAll es = (es.map height).foldl max 0 := by
  induction es with
  | nil => rfl
  | cons e es ih => rw [heightOfAll, ih, List.map_cons, List.foldl_cons, foldl_max _ (max 0 _),
    Nat.zero_max]

theorem heightBelow_eq (s : Shape Expr) : heightBelow s = (s.children.map height).foldl max 0 := by
  cases s with
  | phrase name argument => cases argument <;> simp [heightBelow, Shape.children]
  | tuple items | collection items => simp only [heightBelow, Shape.children, heightOfAll_eq]
  | _ => simp [heightBelow, Shape.children, Nat.max_assoc]

theorem height_node (s : Shape Expr) :
    height (.node s) = 1 + (s.children.map height).foldl max 0 := by
  rw [height, heightBelow_eq, Nat.add_comm]

theorem height_pos (e : Expr) : 0 < e.height := by
  cases e
  rw [height]
  omega

theorem le_foldl_max {xs : List Nat} {x : Nat} (h : x ∈ xs) : x ≤ xs.foldl max 0 := by
  induction xs with
  | nil => cases h
  | cons y xs ih =>
    rw [List.foldl_cons, foldl_max]
    rcases List.mem_cons.1 h with rfl | h
    · omega
    · have := ih h; omega

theorem foldl_max_le {xs : List Nat} {k : Nat} (h : ∀ x ∈ xs, x ≤ k) : xs.foldl max 0 ≤ k := by
  induction xs with
  | nil => exact Nat.zero_le k
  | cons y xs ih =>
    obtain ⟨first, rest⟩ := List.forall_mem_cons.1 h
    rw [List.foldl_cons, foldl_max]
    have := ih rest
    omega

theorem height_lt_of_mem_children {s : Shape Expr} {e : Expr} (h : e ∈ s.children) :
    e.height < height (.node s) := by
  have := le_foldl_max (List.mem_map_of_mem (f := height) h)
  rw [height_node]
  omega

end Expr

def Shape.Proper {α : Type} : Shape α → Prop
  | .tuple items | .collection items => 2 ≤ items.length
  | _ => True

namespace Grammar

namespace State

def tree (s : State) : Tree := ⟨s.nodes, s.nodes.size - 1⟩

theorem expr_tree (s : State) (id : NodeId) :
    s.tree.expr id = Tree.result (fun _ s => .node s) s.nodes id := rfl

end State

/-- The roots on the stack and the expressions that they stand for. -/
abbrev Stack := List (NodeId × Expr)

structure Holds (s : State) (stack : Stack) : Prop where
  forest : Tree.Forest s.nodes (stack.map (·.1))
  reads : ∀ p ∈ stack, s.tree.expr p.1 = p.2
  heights_size : s.heights.size = s.nodes.size
  heights : ∀ id < s.nodes.size, s.heights[id]? = some (s.tree.expr id).height
  tooHigh : s.tooHigh.isSome ↔ ∃ p ∈ stack, maxHeight < p.2.height
  proper : ∀ n ∈ s.nodes.toList, n.shape.Proper

/-- Whatever else the state says is of no account. -/
theorem Holds.of_eq {s t : State} {stack : Stack} (h : Holds s stack) (hn : t.nodes = s.nodes)
    (hh : t.heights = s.heights) (ht : t.tooHigh = s.tooHigh) : Holds t stack := by
  obtain ⟨forest, reads, size, heights, tooHigh, proper⟩ := h
  refine ⟨hn ▸ forest, ?_, by rw [hn, hh, size], ?_, by rw [ht, tooHigh], hn ▸ proper⟩
  · simp only [State.expr_tree] at reads ⊢
    rwa [hn]
  · simp only [State.expr_tree] at heights ⊢
    rwa [hn, hh]

theorem Holds.initial (ts : List Token) : Holds (.initial ts) [] :=
  ⟨.empty, nofun, rfl, nofun, by simp [State.initial], nofun⟩

theorem Holds.advanced {s : State} {stack : Stack} (h : Holds s stack) :
    Holds s.advanced stack := by
  refine h.of_eq ?_ ?_ ?_ <;> unfold State.advanced <;> split <;> try split
  all_goals rfl

section enter

variable {s : State} {below parts : Stack} {shape : Shape (NodeId × Expr)}

theorem tooHigh_entered (shape : Shape NodeId) (start : Nat) :
    (s.entered shape start).tooHigh.isSome ↔ s.tooHigh.isSome ∨ maxHeight < s.heightOf shape := by
  simp only [State.entered]
  cases s.tooHigh <;> by_cases hm : maxHeight < s.heightOf shape <;> simp [hm]

theorem heightOf_eq (h : Holds s (below ++ parts)) (hp : shape.children.Perm parts) :
    s.heightOf (shape.map (·.1)) = (Expr.node (shape.map (·.2))).height := by
  rw [State.heightOf, Expr.height_node, Shape.children_map, Shape.children_map]
  have found : (shape.children.map (·.1)).filterMap (fun child => s.heights[child]?) =
      (shape.children.map (·.2)).map Expr.height := by
    rw [List.filterMap_map, List.map_map, ← List.filterMap_eq_map]
    refine List.filterMap_congr fun p hc => ?_
    have hm : p ∈ below ++ parts := List.mem_append_right _ (hp.mem_iff.1 hc)
    have hid := h.forest.lt_size (List.mem_map_of_mem (f := (·.1)) hm)
    simp only [Function.comp_apply, h.heights _ hid, h.reads p hm]
  rw [found]

theorem expr_entered_lt (shape : Shape NodeId) (start : Nat) {id : NodeId}
    (hid : id < s.nodes.size) : (s.entered shape start).tree.expr id = s.tree.expr id := by
  rw [State.expr_tree, State.expr_tree]
  exact Tree.result_push_lt _ hid

theorem expr_entered_size (h : Holds s (below ++ parts)) (hp : shape.children.Perm parts)
    (start : Nat) :
    (s.entered (shape.map (·.1)) start).tree.expr s.nodes.size = .node (shape.map (·.2)) := by
  rw [State.expr_tree]
  refine (Tree.result_push_size (fun _ (s : Shape Expr) => Expr.node s) _ _).trans
    (congrArg Expr.node ?_)
  rw [Shape.map_map]
  exact Shape.map_congr fun p hc => h.reads p (List.mem_append_right _ (hp.mem_iff.1 hc))

/-- Entering a node takes its parts from the stack and puts the node there. -/
theorem Holds.entered (h : Holds s (below ++ parts)) (hp : shape.children.Perm parts)
    (hs : (shape.map (·.1)).Proper) (start : Nat) :
    Holds (s.entered (shape.map (·.1)) start)
      (below ++ [(s.nodes.size, .node (shape.map (·.2)))]) := by
  have new := expr_entered_size h hp start
  constructor
  case forest =>
    have forest := h.forest
    rw [List.map_append] at forest ⊢
    exact forest.push (by rw [Shape.children_map]; exact hp.map _)
  case reads =>
    intro p hp'
    rcases List.mem_append.1 hp' with hm | hm
    · have hm : p ∈ below ++ parts := List.mem_append_left _ hm
      rw [expr_entered_lt _ _ (h.forest.lt_size (List.mem_map_of_mem hm)), h.reads p hm]
    · cases List.mem_singleton.1 hm
      exact new
  case heights_size => simp only [State.entered, Array.size_push, h.heights_size]
  case heights =>
    intro id hid
    simp only [State.entered, Array.size_push] at hid
    rcases Nat.lt_succ_iff_lt_or_eq.1 hid with hlt | rfl
    · rw [expr_entered_lt _ _ hlt, ← h.heights id hlt]
      exact Array.getElem?_push_lt (by rw [h.heights_size]; exact hlt) |>.trans
        (Array.getElem?_eq_getElem _).symm
    · rw [new, ← heightOf_eq h hp]
      exact h.heights_size ▸ Array.getElem?_push_size
  case tooHigh =>
    rw [tooHigh_entered, heightOf_eq h hp, h.tooHigh]
    simp only [List.mem_append, List.mem_singleton]
    constructor
    · intro h
      obtain ⟨p, hm | hm, hlt⟩ | hlt := h
      · exact ⟨p, .inl hm, hlt⟩
      · -- the whole is higher than its parts
        have : p.2 ∈ (shape.map (·.2)).children := by
          rw [Shape.children_map]
          exact List.mem_map_of_mem (hp.mem_iff.2 hm)
        exact ⟨_, .inr rfl, Nat.lt_trans hlt (Expr.height_lt_of_mem_children this)⟩
      · exact ⟨_, .inr rfl, hlt⟩
    · intro h
      obtain ⟨p, hm | rfl, hlt⟩ := h
      · exact .inl ⟨p, .inl hm, hlt⟩
      · exact .inr hlt
  case proper =>
    intro n hn
    simp only [State.entered, Array.toList_push, List.mem_append, List.mem_singleton] at hn
    rcases hn with hn | rfl
    · exact h.proper n hn
    · exact hs

end enter

end Grammar

end InventoryQuery
