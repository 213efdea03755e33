import Mathlib.Logic.Relation
import InventoryQuery.Proofs.Typing.Termination

/-! An `it` that stands for nothing. A node has a receiver as soon as it lies in a filter or in an
accessor, and whatever is looked up on a receiver has one. So the complaint that there is none starts
at an `it` outside of all of them, and every other node only passes it on. -/

namespace InventoryQuery

namespace Tree

def InFilter (t : Tree) (i : NodeId) : Prop :=
  ∃ w source filter, t.shape? w = some (.whose source filter) ∧ i ∈ t.preorderOf filter

def InAccessor (t : Tree) (i : NodeId) : Prop :=
  ∃ p accessor source, t.shape? p = some (.property accessor source) ∧ i ∈ t.preorderOf accessor

/-- An `it` that stands for nothing. -/
structure FreeIt (t : Tree) (i : NodeId) : Prop where
  shape : t.shape? i = some .it
  outside : ¬ (t.InFilter i ∨ t.InAccessor i)

theorem receiver?_eq_some_iff {t : Tree} {part p s : NodeId} :
    t.receiver? (part, p) = some s ↔
      t.shape? p = some (.whose s part) ∨ t.shape? p = some (.property part s) := by
  unfold receiver?
  split
  · rename_i accessor source whole
    rw [whole]
    simp [eq_comm]
  · rename_i source filter whole
    rw [whole]
    simp [eq_comm, and_comm]
  · rename_i property whose
    simp only [reduceCtorEq, false_iff, not_or]
    exact ⟨whose s part, property part s⟩

theorem receives_iff {t : Tree} {i : NodeId} :
    (∃ part p s, t.receiver? (part, p) = some s ∧ i ∈ t.preorderOf part) ↔ t.InFilter i ∨ t.InAccessor i := by
  simp only [receiver?_eq_some_iff]
  constructor
  · rintro ⟨part, p, s, whole | whole, inside⟩
    · exact .inl ⟨p, s, part, whole, inside⟩
    · exact .inr ⟨p, part, s, whole, inside⟩
  · rintro (⟨p, s, part, whole, inside⟩ | ⟨p, part, s, whole, inside⟩)
    · exact ⟨part, p, s, .inl whole, inside⟩
    · exact ⟨part, p, s, .inr whole, inside⟩

namespace Whole

variable {u : Tree} (h : u.Whole) {id : NodeId}
include h

/-- The receiver that a part is given is handed down to whatever lies in the part, unless another one
is. -/
theorem scope_of_receiver {part p s : NodeId} (hr : u.withScopes.receiver? (part, p) = some s)
    (inside : id ∈ u.withScopes.preorderOf part) : (u.withScopes.scope? id).isSome := by
  obtain ⟨n, hn, parts⟩ := sourceFirst_of_receiver? hr
  have hc : part ∈ u.withScopes.children p := by
    rw [children_eq hn]
    exact n.shape.sourceFirst_perm.mem_iff.1 (by simp [parts])
  have hid : part < u.withScopes.size :=
    Nat.lt_trans (h.withScopes.downward.lt hc) (lt_size_of_mem_children hc)
  refine forall_mem_preorderOf h.withScopes.downward (p := fun x => (u.withScopes.scope? x).isSome) hid ?_ ?_ id inside
  · rw [(h.settings hc).1, hr]
    rfl
  · intro x hx child hc
    rw [(h.settings hc).1, Option.isSome_or, hx, Bool.or_true]

theorem scope_isSome_iff (hid : id < u.withScopes.size) :
    (u.withScopes.scope? id).isSome ↔ u.withScopes.InFilter id ∨ u.withScopes.InAccessor id := by
  rw [← receives_iff]
  constructor
  · intro has
    obtain ⟨steps, path⟩ := h.withScopes.exists_path hid
    rw [(h.settings_of_path path).1, List.findSome?_isSome_iff] at has
    obtain ⟨⟨part, p⟩, hs, hr⟩ := has
    obtain ⟨s, hr⟩ := Option.isSome_iff_exists.1 hr
    obtain ⟨mem, hpart, -⟩ := h.withScopes.mem_orderOf_of_path path hid hs
    exact ⟨part, p, s, hr, (orderOf_perm h.withScopes.downward hpart).mem_iff.1 mem⟩
  · rintro ⟨part, p, s, hr, inside⟩
    exact h.scope_of_receiver hr inside

/-- What is looked up on a receiver has one. -/
theorem scope_of_direct (direct : u.withScopes.isDirect id) : (u.withScopes.scope? id).isSome := by
  have hid : id < u.withScopes.size := by
    refine Nat.not_le.1 fun out => ?_
    have outside : u.withScopes.nodes[id]? = none := Array.getElem?_eq_none out
    simp [isDirect, outside] at direct
  obtain ⟨steps, path⟩ := h.withScopes.exists_path hid
  obtain ⟨scope, accesses⟩ := h.settings_of_path path
  obtain ⟨below, step, above, rfl, -, source, property⟩ := accesses.1 direct
  rw [scope, List.findSome?_isSome_iff]
  refine ⟨step, by simp, ?_⟩
  rw [receiver?_eq_some_iff.2 (.inr property)]
  rfl

theorem freeIt_iff (hid : id < u.withScopes.size) :
    u.withScopes.FreeIt id ↔ u.withScopes.shape? id = some .it ∧ u.withScopes.scope? id = none := by
  rw [← Option.not_isSome_iff_eq_none, h.scope_isSome_iff hid]
  exact ⟨fun free => ⟨free.shape, free.outside⟩, fun free => ⟨free.1, free.2⟩⟩

end Whole

theorem lt_size_of_typeOf? {t : Tree} {ix : Index} {id : NodeId} {r : Except TypeError Ty}
    (typed : t.typeOf? ix id = some r) : id < t.size := by
  refine Nat.not_le.1 fun out => ?_
  have outside : t.nodes[id]? = none := Array.getElem?_eq_none out
  unfold typeOf? at typed
  cases steps : t.size <;> simp [steps, typeWithin, typeStep, outside, Typing.unfinished] at typed

namespace Whole

variable {u : Tree} (h : u.Whole) (ix : Index) {id : NodeId}
include h

theorem typeOf?_of_freeIt (free : u.withScopes.FreeIt id) :
    u.withScopes.typeOf? ix id = some (.error .unboundIt) := by
  have hid := lt_size_of_shape? free.shape
  obtain ⟨shape, scope⟩ := (h.freeIt_iff hid).1 free
  obtain ⟨n, hn⟩ : ∃ n, u.withScopes.nodes[id]? = some n := ⟨_, Array.getElem?_eq_getElem hid⟩
  simp only [shape?, scope?, hn, Option.map_some, Option.bind_some, Option.some.injEq] at shape scope
  rw [h.typeOf?_eq ix hid, typeStep]
  simp only [hn, shape, receiverType, scope]
  rfl

theorem passed_on (unbound : u.withScopes.typeOf? ix id = some (.error .unboundIt)) (bound : ¬ u.withScopes.FreeIt id) :
    ∃ y ∈ u.withScopes.asked id, u.withScopes.typeOf? ix y = some (.error .unboundIt) := by
  have hid := lt_size_of_typeOf? unbound
  rw [h.typeOf?_eq ix hid] at unbound
  have step : (u.withScopes.typeStep ix (fun y => ExceptT.mk (u.withScopes.typeOf? ix y)) id).FailsOnly fun b =>
      b = some .unboundIt → ∃ y ∈ u.withScopes.asked id, u.withScopes.typeOf? ix y = some (.error .unboundIt) := by
    refine typeStep_failsOnly (fun e other same => absurd (Option.some.inj same) other) hid
      (fun shape scope => ?_) (fun direct scope => ?_) (fun y hy => ?_)
    · exact absurd ((h.freeIt_iff hid).2 ⟨shape, scope⟩) bound
    · have receiver := h.scope_of_direct direct
      rw [scope] at receiver
      cases receiver
    · exact .of_imp fun same => ⟨y, hy, same⟩
  exact step.of_error unbound rfl

/-- The nodes that are asked come before, so the complaint is followed back to where it starts. -/
theorem exists_freeIt (unbound : u.withScopes.typeOf? ix id = some (.error .unboundIt)) :
    ∃ i, u.withScopes.FreeIt i ∧ Relation.ReflTransGen (fun x y => y ∈ u.withScopes.asked x) id i := by
  induction id using u.withScopes.before_wf.induction with
  | _ id ih =>
    by_cases free : u.withScopes.FreeIt id
    · exact ⟨id, free, .refl⟩
    · obtain ⟨y, hy, same⟩ := h.passed_on ix unbound free
      obtain ⟨i, free, asked⟩ := ih y (h.asked_before (lt_size_of_typeOf? unbound) hy).2 same
      exact ⟨i, free, .head hy asked⟩

end Whole

end Tree

/-- In a tree that was compiled, a receiver is missing only because of an `it` in no filter and in no
accessor, and there it always is. Every other node passes on what it was told by a node that it asks:
a direct access has a receiver, so no phrase and no marker lacks one itself. -/
theorem unbound_of_free_it (text : List Char) (t : Tree) (h : compile text = .ok t) (ix : Index) :
    (∀ id, t.typeOf? ix id = some (.error .unboundIt) →
      ∃ i, t.FreeIt i ∧ Relation.ReflTransGen (fun x y => y ∈ t.asked x) id i) ∧
    (∀ i, t.FreeIt i → t.typeOf? ix i = some (.error .unboundIt)) ∧
    (∀ id, t.typeOf? ix id = some (.error .unboundIt) → ¬ t.FreeIt id →
      ∃ y ∈ t.asked id, t.typeOf? ix y = some (.error .unboundIt)) ∧
    ∀ id, t.isDirect id → (t.scope? id).isSome := by
  obtain ⟨u, whole, rfl⟩ := whole_of_compile h
  refine ⟨fun id => whole.exists_freeIt ix, fun i => whole.typeOf?_of_freeIt ix, fun id => whole.passed_on ix,
    fun id => whole.scope_of_direct⟩

/-- The `it` in the filter stands for `x`, and the one that `its` puts behind it for nothing. -/
theorem unbound_of_free_it_its :
    let text := "y of its x whose (it)".toList
    let t : Tree := ⟨#[⟨.phrase "y" none, ⟨0, 1⟩, some 6, true⟩, ⟨.it, ⟨6, 10⟩, none, false⟩,
      ⟨.phrase "x" none, ⟨11, 12⟩, some 1, true⟩, ⟨.it, ⟨21, 24⟩, some 2, false⟩,
      ⟨.parens 3, ⟨20, 25⟩, some 2, false⟩, ⟨.whose 2 4, ⟨11, 25⟩, some 1, true⟩,
      ⟨.property 5 1, ⟨6, 25⟩, none, false⟩, ⟨.property 0 6, ⟨0, 25⟩, none, false⟩], 7⟩
    let ix := Index.bare .everything
    compile text = .ok t ∧ t.typeOf? ix 7 = some (.error .unboundIt) ∧ ¬ t.FreeIt 7 ∧ t.isDirect 5 ∧
      (∃ i, t.FreeIt i ∧ t.typeOf? ix i = some (.error .unboundIt) ∧
        Relation.ReflTransGen (fun x y => y ∈ t.asked x) 7 i) ∧
      (∃ y ∈ t.asked 7, t.typeOf? ix y = some (.error .unboundIt)) ∧ (t.scope? 5).isSome := by
  intro text t ix
  have compiled : compile text = .ok t := by decide +kernel
  have unbound : t.typeOf? ix 7 = some (.error .unboundIt) := by rfl
  have property : ¬ t.FreeIt 7 := fun free => nomatch free.shape
  have direct : t.isDirect 5 := by decide
  obtain ⟨blame, free, passed, direct_scope⟩ := unbound_of_free_it text t compiled ix
  obtain ⟨i, hi, asked⟩ := blame 7 unbound
  exact ⟨compiled, unbound, property, direct, ⟨i, hi, free i hi, asked⟩, passed 7 unbound property, direct_scope 5 direct⟩

end InventoryQuery
