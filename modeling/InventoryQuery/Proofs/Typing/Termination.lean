import InventoryQuery.Proofs.Tree.Order
import InventoryQuery.Typing.Resolve

/-! Typing comes to an end. A step reads only the answers for a few nodes, and it has a result if
those have; in a compiled tree they all come before the node in the order of the nodes. So the
bound on the number of steps is never met, and typing is the recursion that the step describes. -/

namespace InventoryQuery

namespace Typing

variable {α β : Type}

def Finished (m : Typing α) : Prop := ∃ r, m.run = some r

/-- If there is no type, that is for one of these failures: an error, or no result within the steps. -/
def FailsOnly (B : Option TypeError → Prop) (m : Typing α) : Prop :=
  match m.run with
  | some (.ok _) => True
  | some (.error e) => B (some e)
  | none => B none

theorem finished_iff {m : Typing α} : m.Finished ↔ m.FailsOnly (· ≠ none) := by
  unfold Finished FailsOnly
  rcases m.run with _ | (e | a) <;> simp

namespace FailsOnly

variable {B B' : Option TypeError → Prop}

theorem of_error {m : Typing α} {e : TypeError} (h : m.FailsOnly B) (run : m.run = some (.error e)) : B (some e) := by
  rwa [FailsOnly, run] at h

/-- One error has a reason, and nothing is said about the others. -/
theorem of_imp {m : Typing α} {e : TypeError} {P : Prop} (h : m.run = some (.error e) → P) :
    m.FailsOnly fun b => b = some e → P := by
  unfold FailsOnly
  generalize m.run = r at h ⊢
  rcases r with _ | (e' | a)
  · nofun
  · rintro ⟨⟩
    exact h rfl
  · trivial

theorem mono {m : Typing α} (h : m.FailsOnly B) (le : ∀ b, B b → B' b) : m.FailsOnly B' := by
  unfold FailsOnly at h ⊢
  generalize m.run = r at h ⊢
  rcases r with _ | (e | a)
  · exact le _ h
  · exact le _ h
  · trivial

theorem pure (a : α) : FailsOnly B (Pure.pure a : Typing α) := trivial

theorem throw {e : TypeError} (h : B (some e)) : FailsOnly B (throw e : Typing α) := h

theorem ofExcept {r : Except TypeError α} (h : ∀ e, r = .error e → B (some e)) : FailsOnly B (Typing.ofExcept r) := by
  cases r with
  | error e => exact h e rfl
  | ok a => trivial

theorem bind {m : Typing α} {f : α → Typing β} (hm : m.FailsOnly B) (hf : ∀ a, (f a).FailsOnly B) :
    (m >>= f).FailsOnly B := by
  unfold FailsOnly at hm hf ⊢
  rw [ExceptT.run_bind]
  generalize m.run = r at hm ⊢
  rcases r with _ | (e | a)
  · exact hm
  · exact hm
  · exact hf a

theorem map {m : Typing α} (f : α → β) (hm : m.FailsOnly B) : (f <$> m).FailsOnly B := by
  rw [map_eq_pure_bind]
  exact hm.bind fun a => .pure (f a)

/-- What is caught is no failure any more. -/
theorem tryCatch {m : Typing α} {f : TypeError → Typing α} (hm : m.FailsOnly fun b => b = none → B b)
    (hf : ∀ e, (f e).FailsOnly B) : (tryCatch m f).FailsOnly B := by
  unfold FailsOnly at hm hf ⊢
  rw [ExceptT.run_tryCatch]
  generalize m.run = r at hm ⊢
  rcases r with _ | (e | a)
  · exact hm rfl
  · exact hf e
  · trivial

theorem mapM {f : α → Typing β} {l : List α} (h : ∀ a ∈ l, (f a).FailsOnly B) : (l.mapM f).FailsOnly B := by
  induction l with
  | nil => exact .pure _
  | cons a l ih =>
    obtain ⟨first, rest⟩ := List.forall_mem_cons.1 h
    rw [List.mapM_cons]
    exact first.bind fun _ => (ih rest).bind fun _ => .pure _

end FailsOnly

theorem mapM_congr {f g : α → Typing β} {l : List α} (h : ∀ a ∈ l, f a = g a) :
    l.mapM f = l.mapM g := by
  induction l with
  | nil => rfl
  | cons a l ih =>
    obtain ⟨first, rest⟩ := List.forall_mem_cons.1 h
    rw [List.mapM_cons, List.mapM_cons, first, ih rest]

end Typing

theorem Ty.property_ne_unbound (ty : Ty) (ix : Index) (name : String) (params : Option String) :
    ty.property ix name params ≠ .error .unboundIt := by
  rcases owner : ty.ownerName with e | o
  · have operator : e ≠ .unboundIt := by
      rintro rfl
      cases ty <;> simp [ownerName] at owner
    simp only [property, owner]
    exact fun same => operator (Except.error.inj same)
  · simp only [property, owner, bind, Except.bind]
    split <;> simp

namespace Tree

theorem tupleItem?_ne_unbound (t : Tree) (owner : Ty) (name : String) (argument : Option NodeId) :
    ∀ r ∈ t.tupleItem? owner name argument, r ≠ .error .unboundIt := by
  intro r found
  unfold tupleItem? at found
  dsimp only at found
  repeat' split at found
  all_goals cases found
  all_goals nofun

/-- A property looks its accessor up on the source; an accessor that is no phrase has a type of its
own. -/
def askedByProperty (t : Tree) (accessor source : NodeId) : List NodeId :=
  match t.shape? accessor with
  | some (.phrase _ argument) => source :: argument.toList
  | _ => [accessor]

/-- The nodes whose types are asked for when a node is typed. -/
def asked (t : Tree) (id : NodeId) : List NodeId :=
  match t.nodes[id]? with
  | none => []
  | some n =>
    match n.shape with
    | .it => n.scope.toList
    | .marker => if n.direct then n.scope.toList else []
    | .phrase _ argument => argument.toList ++ n.scope.toList
    | .property accessor source => t.askedByProperty accessor source
    | .whose source _ => [source]
    | .parens content => [content]
    | .tuple items => items
    | .collection items => items.head?.toList
    | .conditional _ thenBranch _ => [thenBranch]
    | _ => []

section step

variable {t : Tree} {ix : Index} {ask other : NodeId → Typing Ty} {id : NodeId} {n : Node}
variable {argument : Option NodeId}

theorem receiverType_congr (h : ∀ y ∈ n.scope.toList, ask y = other y) :
    receiverType ask n = receiverType other n := by
  unfold receiverType
  cases hs : n.scope with
  | none => rfl
  | some scope => exact h scope (by simp [hs])

theorem argumentType_congr (h : ∀ y ∈ argument.toList, ask y = other y) :
    argumentType ask argument = argumentType other argument := by
  cases argument with
  | none => rfl
  | some id => simp only [argumentType, h id (by simp)]

theorem phraseType_congr {name : String}
    (h : ∀ y ∈ argument.toList ++ n.scope.toList, ask y = other y) :
    phraseType ix ask n name argument = phraseType ix other n name argument := by
  obtain ⟨params, scope⟩ := List.forall_mem_append.1 h
  unfold phraseType
  rw [argumentType_congr params, receiverType_congr scope]
  cases hs : n.scope with
  | none => rfl
  | some receiver => simp only [scope receiver (by simp [hs])]

theorem propertyType_congr {accessor source : NodeId}
    (h : ∀ y ∈ t.askedByProperty accessor source, ask y = other y) :
    propertyType t ix ask accessor source = propertyType t ix other accessor source := by
  unfold propertyType
  unfold askedByProperty at h
  split
  · rename_i shape
    rw [shape] at h
    obtain ⟨owner, params⟩ := List.forall_mem_cons.1 h
    rw [owner, argumentType_congr params]
  · split at h
    · simp_all
    · exact h accessor (List.mem_singleton.2 rfl)

/-- A step reads only what it asks for. -/
theorem typeStep_congr (h : ∀ y ∈ t.asked id, ask y = other y) :
    t.typeStep ix ask id = t.typeStep ix other id := by
  unfold typeStep
  unfold asked at h
  cases hn : t.nodes[id]? with
  | none => rfl
  | some n =>
    simp only [hn] at h
    cases hs : n.shape <;> simp only [hs] at h ⊢
    case it => exact receiverType_congr h
    case marker =>
      split
      · rename_i direct
        exact receiverType_congr (by simpa [direct] using h)
      · rfl
    case phrase => exact phraseType_congr h
    case property => exact propertyType_congr h
    case whose source _ => exact h source (List.mem_singleton.2 rfl)
    case parens content => exact h content (List.mem_singleton.2 rfl)
    case tuple items => rw [Typing.mapM_congr h]
    case collection items =>
      cases items with
      | nil => rfl
      | cons first _ => exact h first (List.mem_singleton.2 rfl)
    case conditional thenBranch _ => exact h thenBranch (List.mem_singleton.2 rfl)

section failure

variable {B : Option TypeError → Prop} (own : ∀ e, e ≠ .unboundIt → B (some e))

theorem receiverType_failsOnly (missing : n.scope = none → B (some .unboundIt))
    (h : ∀ y ∈ n.scope.toList, (ask y).FailsOnly B) : (receiverType ask n).FailsOnly B := by
  unfold receiverType
  cases hs : n.scope with
  | none => exact .throw (missing hs)
  | some scope => exact h scope (by simp [hs])

theorem argumentType_failsOnly (h : ∀ y ∈ argument.toList, (ask y).FailsOnly B) :
    (argumentType ask argument).FailsOnly B := by
  cases argument with
  | none => exact .pure _
  | some id => exact (h id (by simp)).bind fun _ => .pure _

include own

theorem ofExcept_failsOnly {α : Type} {r : Except TypeError α} (h : r ≠ .error .unboundIt) :
    (Typing.ofExcept r).FailsOnly B := by
  refine .ofExcept ?_
  rintro e rfl
  exact own e fun same => h (congrArg _ same)

theorem phraseType_failsOnly {name : String} (missing : n.direct → n.scope = none → B (some .unboundIt))
    (h : ∀ y ∈ argument.toList ++ n.scope.toList, (ask y).FailsOnly B) :
    (phraseType ix ask n name argument).FailsOnly B := by
  obtain ⟨params, scope⟩ := List.forall_mem_append.1 h
  unfold phraseType
  dsimp only
  split
  · exact .pure _
  · refine (argumentType_failsOnly params).bind fun key => ?_
    split
    · rename_i direct
      exact (receiverType_failsOnly (missing direct) scope).bind fun _ =>
        ofExcept_failsOnly own (Ty.property_ne_unbound _ ix _ _)
    · split
      · exact .pure _
      · split
        · exact .throw (own _ nofun)
        · -- the errors of the receiver are caught
          rename_i receiver hs
          have caught : (ask receiver).FailsOnly fun b => b = none → B b :=
            (scope receiver (by simp [hs])).mono fun _ hb _ => hb
          exact .tryCatch (caught.bind fun _ => .ofExcept fun _ _ => nofun) fun _ => .throw (own _ nofun)

theorem propertyType_failsOnly {accessor source : NodeId}
    (h : ∀ y ∈ t.askedByProperty accessor source, (ask y).FailsOnly B) :
    (propertyType t ix ask accessor source).FailsOnly B := by
  unfold propertyType
  unfold askedByProperty at h
  split
  · rename_i shape
    rw [shape] at h
    obtain ⟨owner, params⟩ := List.forall_mem_cons.1 h
    refine owner.bind fun _ => ?_
    split
    · rename_i item found
      exact ofExcept_failsOnly own (tupleItem?_ne_unbound _ _ _ _ item found)
    · exact (argumentType_failsOnly params).bind fun _ => ofExcept_failsOnly own (Ty.property_ne_unbound _ ix _ _)
  · split at h
    · simp_all
    · exact h accessor (List.mem_singleton.2 rfl)

/-- A step fails as a step that it asks for does, or by an error of its own; it misses a receiver only
at an `it` or at a direct access that has none. -/
theorem typeStep_failsOnly (hid : id < t.size) (it : t.shape? id = some .it → t.scope? id = none → B (some .unboundIt))
    (direct : t.isDirect id → t.scope? id = none → B (some .unboundIt)) (h : ∀ y ∈ t.asked id, (ask y).FailsOnly B) :
    (t.typeStep ix ask id).FailsOnly B := by
  obtain ⟨n, hn⟩ : ∃ n, t.nodes[id]? = some n := ⟨_, Array.getElem?_eq_getElem hid⟩
  unfold typeStep
  unfold asked at h
  simp only [shape?, scope?, isDirect, hn, Option.map_some, Option.bind_some, Option.any_some,
    Option.some.injEq] at it direct h ⊢
  cases hs : n.shape <;> simp only [hs] at it h ⊢
  case it => exact receiverType_failsOnly (it trivial) h
  case marker =>
    split
    · rename_i yes
      exact receiverType_failsOnly (direct yes) (by simpa [yes] using h)
    · exact .pure _
  case phrase => exact phraseType_failsOnly own direct h
  case property => exact propertyType_failsOnly own h
  case whose source _ => exact h source (List.mem_singleton.2 rfl)
  case parens content => exact h content (List.mem_singleton.2 rfl)
  case tuple items => exact (Typing.FailsOnly.mapM h).map _
  case collection items =>
    cases items with
    | nil => exact .pure _
    | cons first _ => exact h first (List.mem_singleton.2 rfl)
  case conditional thenBranch _ => exact h thenBranch (List.mem_singleton.2 rfl)
  all_goals exact .pure _

end failure

/-- A step comes to a result if what it asks for does. -/
theorem typeStep_finished (hid : id < t.size) (h : ∀ y ∈ t.asked id, (ask y).Finished) :
    (t.typeStep ix ask id).Finished := by
  have parts : ∀ y ∈ t.asked id, (ask y).FailsOnly (· ≠ none) := fun y hy => Typing.finished_iff.1 (h y hy)
  exact Typing.finished_iff.2 (typeStep_failsOnly (fun _ _ => nofun) hid (fun _ _ => nofun) (fun _ _ => nofun) parts)

end step

theorem Whole.scope_before {u : Tree} (h : u.Whole) {id scope : NodeId} {n : Node}
    (hn : u.withScopes.nodes[id]? = some n) (hs : n.scope = some scope) :
    scope < u.withScopes.size ∧ u.withScopes.Before scope id := by
  have hid : id < u.withScopes.size := (Array.getElem?_eq_some_iff.1 hn).1
  obtain ⟨steps, path⟩ := h.withScopes.exists_path hid
  refine h.withScopes.before_of_receiver path hid ?_
  rw [← (h.settings_of_path path).1, scope?, hn, Option.bind_some, hs]

/-- Whatever is asked for comes before the node. -/
theorem Whole.asked_before {u : Tree} (h : u.Whole) {id y : NodeId} (hid : id < u.withScopes.size)
    (hy : y ∈ u.withScopes.asked id) : y < u.withScopes.size ∧ u.withScopes.Before y id := by
  have part {p c : NodeId} (hc : c ∈ u.withScopes.children p) :
      c < u.withScopes.size ∧ u.withScopes.Before c p :=
    ⟨Nat.lt_trans (h.withScopes.downward.lt hc) (lt_size_of_mem_children hc),
      h.withScopes.before_of_mem_children hc⟩
  obtain ⟨n, hn⟩ : ∃ n, u.withScopes.nodes[id]? = some n := ⟨_, Array.getElem?_eq_getElem hid⟩
  have receiver (hs : y ∈ n.scope.toList) : y < u.withScopes.size ∧ u.withScopes.Before y id :=
    h.scope_before hn (Option.mem_toList.1 hs)
  have parts (hc : y ∈ n.shape.children) : y < u.withScopes.size ∧ u.withScopes.Before y id :=
    part (children_eq hn ▸ hc)
  unfold asked at hy
  simp only [hn] at hy
  cases hs : n.shape <;> simp only [hs] at hy parts
  case it => exact receiver hy
  case marker =>
    split at hy
    · exact receiver hy
    · cases hy
  case phrase => exact (List.mem_append.1 hy).elim parts receiver
  case property accessor source =>
    unfold askedByProperty at hy
    split at hy
    · rename_i name argument shape
      rcases List.mem_cons.1 hy with rfl | hy
      · exact parts (by simp [Shape.children])
      · -- the argument is a part of the accessor
        have inner := part (p := accessor) (c := y) (by simpa [children, shape, Shape.children] using hy)
        have outer := part (p := id) (c := accessor) (by simp [children_eq hn, hs, Shape.children])
        exact ⟨inner.1, inner.2.trans outer.2⟩
    · exact parts (by simp_all [Shape.children])
  case collection items =>
    exact parts (List.mem_of_mem_head? (Option.mem_toList.1 hy))
  all_goals exact parts (by simp_all [Shape.children])

section recursion

variable {u : Tree} (h : u.Whole) (ix : Index) {id : NodeId}
include h

/-- Beyond the place of the node in the order the number of steps does not matter. -/
theorem Whole.typeWithin_stable (hid : id < u.withScopes.size) {k m : Nat}
    (hk : u.withScopes.order.idxOf id < k) (hm : u.withScopes.order.idxOf id < m) :
    u.withScopes.typeWithin ix k id = u.withScopes.typeWithin ix m id := by
  induction k generalizing id m with
  | zero => cases hk
  | succ k ih =>
    cases m with
    | zero => cases hm
    | succ m =>
      refine typeStep_congr fun y hy => ?_
      obtain ⟨lt, before⟩ := h.asked_before hid hy
      exact ih lt (Nat.lt_of_lt_of_le before (Nat.le_of_lt_succ hk))
        (Nat.lt_of_lt_of_le before (Nat.le_of_lt_succ hm))

theorem Whole.typeWithin_finished (hid : id < u.withScopes.size) {k : Nat}
    (hk : u.withScopes.order.idxOf id < k) : (u.withScopes.typeWithin ix k id).Finished := by
  induction k generalizing id with
  | zero => cases hk
  | succ k ih =>
    refine typeStep_finished hid fun y hy => ?_
    obtain ⟨lt, before⟩ := h.asked_before hid hy
    exact ih lt (Nat.lt_of_lt_of_le before (Nat.le_of_lt_succ hk))

/-- Typing is the recursion that the step describes. -/
theorem Whole.typeOf?_eq (hid : id < u.withScopes.size) :
    u.withScopes.typeOf? ix id =
      (u.withScopes.typeStep ix (fun y => ExceptT.mk (u.withScopes.typeOf? ix y)) id).run := by
  have enough := h.withScopes.idxOf_order_lt hid
  unfold typeOf?
  rw [h.typeWithin_stable ix hid enough (Nat.lt_succ_of_lt enough)]
  rfl

end recursion

end Tree

/-- In a tree that was compiled, typing a node asks only for nodes that come before it in a strict
and well-founded order of the nodes, whatever the catalog is, and so it ends with a type or an error
for every node. -/
theorem typing_terminates (text : List Char) (t : Tree) (h : compile text = .ok t) :
    ∃ below : NodeId → NodeId → Prop,
      (∀ x y z, below x y → below y z → below x z) ∧ WellFounded below ∧
      ∀ (ix : Index) (id : NodeId), id < t.size →
        (∀ y ∈ t.asked id, y < t.size ∧ below y id) ∧
        (∀ ask other : NodeId → Typing Ty, (∀ y ∈ t.asked id, ask y = other y) →
          t.typeStep ix ask id = t.typeStep ix other id) ∧
        t.typeOf? ix id = (t.typeStep ix (fun y => ExceptT.mk (t.typeOf? ix y)) id).run ∧
        ∃ r, t.typeOf? ix id = some r := by
  obtain ⟨u, whole, rfl⟩ := whole_of_compile h
  refine ⟨u.withScopes.Before, fun x y z => Tree.Before.trans,
    u.withScopes.before_wf, fun ix id hid =>
    ⟨fun y => whole.asked_before hid, fun ask other => Tree.typeStep_congr,
      whole.typeOf?_eq ix hid, ?_⟩⟩
  exact whole.typeWithin_finished ix hid (whole.withScopes.idxOf_order_lt hid)

theorem typing_terminates_arrow :
    let text := "y -> x whose (it)".toList
    let t : Tree := ⟨#[⟨.phrase "y" none, ⟨0, 1⟩, none, false⟩,
      ⟨.phrase "x" none, ⟨5, 6⟩, some 0, true⟩, ⟨.it, ⟨15, 18⟩, some 1, false⟩,
      ⟨.parens 2, ⟨14, 19⟩, some 1, false⟩, ⟨.whose 1 3, ⟨5, 19⟩, some 0, true⟩,
      ⟨.property 4 0, ⟨0, 19⟩, none, false⟩], 5⟩
    compile text = .ok t ∧ ∃ below : NodeId → NodeId → Prop,
      (∀ x y z, below x y → below y z → below x z) ∧ WellFounded below ∧
      ∀ (ix : Index) (id : NodeId), id < t.size →
        (∀ y ∈ t.asked id, y < t.size ∧ below y id) ∧
        (∀ ask other : NodeId → Typing Ty, (∀ y ∈ t.asked id, ask y = other y) →
          t.typeStep ix ask id = t.typeStep ix other id) ∧
        t.typeOf? ix id = (t.typeStep ix (fun y => ExceptT.mk (t.typeOf? ix y)) id).run ∧
        ∃ r, t.typeOf? ix id = some r := by
  intro text t
  have compiled : compile text = .ok t := by decide +kernel
  exact ⟨compiled, typing_terminates text t compiled⟩

end InventoryQuery
