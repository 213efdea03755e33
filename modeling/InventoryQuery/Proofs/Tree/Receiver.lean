import InventoryQuery.Proofs.Grammar.Accepted
import InventoryQuery.Proofs.Tree.Placement

/-! Receivers, read off the way from a node up to the root. The receiver is the source at the first
step that leaves an accessor or a filter. A node is looked up on it directly if that step leaves an
accessor and all steps before it only leave what is filtered. -/

namespace InventoryQuery

namespace Tree

inductive Path (t : Tree) : NodeId → List (NodeId × NodeId) → Prop
  | root : Path t t.root []
  | up {child parent : NodeId} {steps : List (NodeId × NodeId)} :
    child ∈ t.children parent → Path t parent steps → Path t child ((child, parent) :: steps)

/-- What is the receiver below a step that leaves an accessor or a filter. -/
def receiver? (t : Tree) (step : NodeId × NodeId) : Option NodeId :=
  match t.shape? step.2 with
  | some (.property accessor source) => if step.1 = accessor then some source else none
  | some (.whose source filter) => if step.1 = filter then some source else none
  | _ => none

def LeavesFiltered (t : Tree) (step : NodeId × NodeId) : Prop :=
  ∃ filter, t.shape? step.2 = some (.whose step.1 filter)

def LeavesAccessor (t : Tree) (step : NodeId × NodeId) : Prop :=
  ∃ source, t.shape? step.2 = some (.property step.1 source)

namespace Whole

variable {t : Tree}

theorem exists_path (h : t.Whole) {id : NodeId} (hid : id < t.size) :
    ∃ steps, t.Path id steps := by
  -- a whole has a larger number than its part
  induction hk : t.size - id using Nat.strongRecOn generalizing id with
  | ind k ih =>
    by_cases hr : id = t.root
    · exact ⟨[], hr ▸ .root⟩
    · obtain ⟨p, hp⟩ := h.exists_parent hid hr
      have closer : t.size - p < k := hk ▸ Nat.sub_lt_sub_left hid (h.downward.lt hp)
      obtain ⟨steps, path⟩ := ih _ closer (lt_size_of_mem_children hp) rfl
      exact ⟨_, .up hp path⟩

theorem path_unique (h : t.Whole) {id : NodeId} {steps others : List (NodeId × NodeId)}
    (path : t.Path id steps) (other : t.Path id others) : others = steps := by
  induction path generalizing others with
  | root =>
    cases other with
    | root => rfl
    | up hc => exact absurd hc (h.root_not_mem _)
  | up hc _ ih =>
    cases other with
    | root => exact absurd hc (h.root_not_mem _)
    | up hd other =>
      obtain rfl := h.parent_unique hc hd
      rw [ih other]

/-- The settings of a part are among those that its whole hands down. -/
theorem mem_handedDown (h : t.Whole) {p child : NodeId} {n m : Node}
    (hn : t.withScopes.nodes[p]? = some n) (hm : t.withScopes.nodes[child]? = some m)
    (hc : child ∈ n.shape.children) : (child, m.scope, m.direct) ∈ handedDown n := by
  obtain ⟨part, hpart, rfl⟩ := List.mem_map.1 ((handedDown_perm n).mem_iff.2 hc)
  obtain ⟨m', hm', scope, direct⟩ := h.withScopes_part hn hpart
  cases hm.symm.trans hm'
  rw [scope, direct]
  exact hpart

end Whole

section step

variable {u : Tree} {child p : NodeId}

/-- What a node has is what the step to its whole gives, or else what its whole has. -/
theorem Whole.settings (h : u.Whole) (hc : child ∈ u.withScopes.children p) :
    u.withScopes.scope? child =
        (u.withScopes.receiver? (child, p)).or (u.withScopes.scope? p) ∧
      (u.withScopes.isDirect child ↔ u.withScopes.LeavesAccessor (child, p) ∨
        u.withScopes.LeavesFiltered (child, p) ∧ u.withScopes.isDirect p) := by
  have distinct := h.withScopes.children_distinct p
  obtain ⟨n, hn, hc'⟩ := exists_of_mem_children hc
  obtain ⟨m, hm⟩ : ∃ m, u.withScopes.nodes[child]? = some m :=
    ⟨_, Array.getElem?_eq_getElem
      (Nat.lt_trans (h.withScopes.downward.lt hc) (lt_size_of_mem_children hc))⟩
  have handed := h.mem_handedDown hn hm hc'
  rw [children_eq hn] at distinct
  simp only [scope?, isDirect, receiver?, LeavesAccessor, LeavesFiltered, shape?, hn, hm,
    Option.bind_some, Option.any_some, Option.map_some]
  unfold handedDown at handed
  cases hs : n.shape with
  | property accessor source =>
    simp only [hs, Shape.children, List.nodup_cons, List.mem_singleton] at distinct
    simp only [hs, List.mem_cons, Prod.mk.injEq, List.not_mem_nil, or_false] at handed
    rcases handed with ⟨rfl, scope, direct⟩ | ⟨rfl, scope, direct⟩
    · simp [scope, direct, Ne.symm distinct.1, distinct.1]
    · simp [scope, direct]
  | whose source filter =>
    simp only [hs, Shape.children, List.nodup_cons, List.mem_singleton] at distinct
    simp only [hs, List.mem_cons, Prod.mk.injEq, List.not_mem_nil, or_false] at handed
    rcases handed with ⟨rfl, scope, direct⟩ | ⟨rfl, scope, direct⟩
    · simp [scope, direct, distinct.1]
    · simp [scope, direct, distinct.1]
  | _ =>
    simp only [hs, List.mem_map, Prod.mk.injEq] at handed
    obtain ⟨_, -, -, scope, direct⟩ := handed
    simp [← scope, ← direct]

end step

/-- The settings of a node, read off its way to the root. -/
theorem Whole.settings_of_path {u : Tree} (h : u.Whole) {id : NodeId}
    {steps : List (NodeId × NodeId)} (path : u.withScopes.Path id steps) :
    u.withScopes.scope? id = steps.findSome? u.withScopes.receiver? ∧
      (u.withScopes.isDirect id ↔ ∃ below step above, steps = below ++ step :: above ∧
        (∀ b ∈ below, u.withScopes.LeavesFiltered b) ∧ u.withScopes.LeavesAccessor step) := by
  induction path with
  | root =>
    obtain ⟨n, hn, scope, direct⟩ := h.withScopes_root
    have same : u.withScopes.root = u.root := rfl
    refine ⟨by simp [scope?, same, hn, scope], ⟨fun yes => ?_, fun receiver => ?_⟩⟩
    · simp [isDirect, same, hn, direct] at yes
    · obtain ⟨below, step, above, empty, -⟩ := receiver
      simp at empty
  | @up child parent steps hc _ ih =>
    obtain ⟨scope, direct⟩ := h.settings hc
    refine ⟨?_, direct.trans ⟨fun either => ?_, fun receiver => ?_⟩⟩
    · rw [scope, ih.1, List.findSome?_cons]
      cases u.withScopes.receiver? (child, parent) <;> rfl
    · rcases either with access | ⟨filtered, yes⟩
      · exact ⟨[], _, steps, rfl, nofun, access⟩
      · obtain ⟨below, step, above, rfl, hb, access⟩ := ih.2.1 yes
        exact ⟨_ :: below, step, above, rfl, List.forall_mem_cons.2 ⟨filtered, hb⟩, access⟩
    · obtain ⟨below, step, above, split, hb, access⟩ := receiver
      cases below with
      | nil =>
        cases split
        exact .inl access
      | cons b below =>
        cases split
        exact .inr ⟨hb _ List.mem_cons_self, ih.2.2 ⟨below, step, above, rfl,
          fun x hx => hb x (List.mem_cons_of_mem _ hx), access⟩⟩

end Tree

/-- In a tree that was compiled there is one way from every node up to the root, and it tells the
receiver of the node and whether the node is looked up on it. -/
theorem receiver_of_path (text : List Char) (t : Tree) (h : compile text = .ok t) (id : NodeId)
    (hid : id < t.size) :
    ∃ steps, t.Path id steps ∧ (∀ others, t.Path id others → others = steps) ∧
      t.scope? id = steps.findSome? t.receiver? ∧
      (t.isDirect id ↔ ∃ below step above, steps = below ++ step :: above ∧
        (∀ b ∈ below, t.LeavesFiltered b) ∧ t.LeavesAccessor step) := by
  obtain ⟨u, whole, rfl⟩ := whole_of_compile h
  obtain ⟨steps, path⟩ := whole.withScopes.exists_path hid
  exact ⟨steps, path, fun others => whole.withScopes.path_unique path,
    whole.settings_of_path path⟩

theorem receiver_of_path_filtered_accessor :
    let text := "x whose (it) of y".toList
    let t : Tree := ⟨#[⟨.phrase "x" none, ⟨0, 1⟩, some 4, true⟩, ⟨.it, ⟨10, 13⟩, some 0, false⟩,
      ⟨.parens 1, ⟨9, 14⟩, some 0, false⟩, ⟨.whose 0 2, ⟨0, 14⟩, some 4, true⟩,
      ⟨.phrase "y" none, ⟨19, 20⟩, none, false⟩, ⟨.property 3 4, ⟨0, 20⟩, none, false⟩], 5⟩
    compile text = .ok t ∧ 0 < t.size ∧ ∃ steps, t.Path 0 steps ∧
      (∀ others, t.Path 0 others → others = steps) ∧ t.scope? 0 = steps.findSome? t.receiver? ∧
      (t.isDirect 0 ↔ ∃ below step above, steps = below ++ step :: above ∧
        (∀ b ∈ below, t.LeavesFiltered b) ∧ t.LeavesAccessor step) := by
  intro text t
  have compiled : compile text = .ok t := by decide +kernel
  have inside : 0 < t.size := by decide
  exact ⟨compiled, inside, receiver_of_path text t compiled 0 inside⟩

end InventoryQuery
