import Mathlib.Data.List.Forall2
import InventoryQuery.Proofs.Typing.Unbound

/-! What a step of typing makes of the types it asks for. Most nodes pass the type of another node on
as it is, a property that asks for an item passes on one item of a tuple, and a list puts the types of
its items together. All that is looked up has a name, so nothing else makes a tuple. -/

namespace InventoryQuery

namespace Ty

mutual

def leaves : Ty → Nat
  | named _ | unsupported _ => 1
  | tuple items => leavesAll items

def leavesAll : List Ty → Nat
  | [] => 0
  | ty :: tys => ty.leaves + leavesAll tys

end

def Single : Ty → Prop
  | tuple _ => False
  | _ => True

theorem leaves_of_single {ty : Ty} (h : ty.Single) : ty.leaves = 1 := by
  cases ty with
  | tuple => exact h.elim
  | named | unsupported => rfl

theorem single_of_property {ty r : Ty} {ix : Index} {name : String} {params : Option String}
    (h : ty.property ix name params = .ok r) : r.Single := by
  unfold property at h
  cases ho : ty.ownerName with
  | error e => simp [ho, bind, Except.bind] at h
  | ok owner =>
    simp only [ho, bind, Except.bind] at h
    split at h
    · cases h
      trivial
    · cases h

end Ty

namespace Typing

variable {α β : Type}

/-- What is found has the property. -/
def Yields (P : α → Prop) (m : Typing α) : Prop := ∀ a, m.run = some (.ok a) → P a

theorem run_bind_eq_ok {m : Typing α} {f : α → Typing β} {b : β} (h : (m >>= f).run = some (.ok b)) :
    ∃ a, m.run = some (.ok a) ∧ (f a).run = some (.ok b) := by
  rw [ExceptT.run_bind] at h
  cases run : m.run with
  | none => rw [run] at h; cases h
  | some r =>
    rw [run] at h
    cases r with
    | error e => cases h
    | ok a => exact ⟨a, rfl, h⟩

theorem forall₂_of_mapM {f : α → Typing β} {l : List α} {bs : List β} (h : (l.mapM f).run = some (.ok bs)) :
    List.Forall₂ (fun a b => (f a).run = some (.ok b)) l bs := by
  induction l generalizing bs with
  | nil =>
    cases h
    exact .nil
  | cons a l ih =>
    rw [List.mapM_cons] at h
    obtain ⟨b, first, h⟩ := run_bind_eq_ok h
    obtain ⟨rest, others, h⟩ := run_bind_eq_ok h
    cases h
    exact .cons first (ih others)

namespace Yields

variable {P : α → Prop} {Q : β → Prop}

theorem pure {a : α} (h : P a) : Yields P (Pure.pure a : Typing α) := by
  rintro _ ⟨⟩
  exact h

theorem unfinished : Yields P (Typing.unfinished : Typing α) := nofun

theorem throw (e : TypeError) : Yields P (throw e : Typing α) := nofun

theorem ofExcept {r : Except TypeError α} (h : ∀ a, r = .ok a → P a) : Yields P (Typing.ofExcept r) :=
  fun a found => h a (Option.some.inj found)

/-- Whatever the first part finds. -/
theorem after {m : Typing α} {f : α → Typing β} (hf : ∀ a, (f a).Yields Q) : (m >>= f).Yields Q := by
  intro b found
  obtain ⟨a, -, found⟩ := run_bind_eq_ok found
  exact hf a b found

theorem tryCatch {m : Typing α} {f : TypeError → Typing α} (hm : m.Yields P) (hf : ∀ e, (f e).Yields P) :
    (tryCatch m f).Yields P := by
  intro a found
  rw [ExceptT.run_tryCatch] at found
  cases run : m.run with
  | none => rw [run] at found; cases found
  | some r =>
    rw [run] at found
    cases r with
    | error e => exact hf e a found
    | ok b =>
      cases found
      exact hm _ run

end Yields

end Typing

namespace Tree

/-- The node whose type the node has as it is. -/
def follows? (t : Tree) (id : NodeId) : Option NodeId :=
  match t.shape? id with
  | some .it => t.scope? id
  | some .marker => if t.isDirect id then t.scope? id else none
  | some (.property accessor _) =>
    match t.shape? accessor with
    | some (.phrase ..) => none
    | _ => some accessor
  | some (.whose source _) => some source
  | some (.parens content) => some content
  | some (.collection items) => items.head?
  | some (.conditional _ thenBranch _) => some thenBranch
  | _ => none

def itemNumber? (t : Tree) (name : String) (argument : Option NodeId) : Option Nat :=
  if lowered name = "item" then
    match argument.bind t.shape? with
    | some (.number digits) => if decimalValue digits.toList < wordLimit then some (decimalValue digits.toList) else none
    | _ => none
  else none

/-- The source of a property that asks for an item, and which one it asks for. -/
def picks? (t : Tree) (id : NodeId) : Option (NodeId × Nat) :=
  match t.shape? id with
  | some (.property accessor source) =>
    match t.shape? accessor with
    | some (.phrase name argument) => (t.itemNumber? name argument).map fun index => (source, index)
    | _ => none
  | _ => none

/-- The nodes whose types the node puts together to a tuple; an empty list is an empty tuple. -/
def items? (t : Tree) (id : NodeId) : Option (List NodeId) :=
  match t.shape? id with
  | some (.tuple items) => some items
  | some (.collection []) => some []
  | _ => none

section step

variable {t : Tree} {ix : Index} {ask : NodeId → Typing Ty} {id : NodeId}

theorem tupleItem?_eq_itemNumber? (owner : Ty) (name : String) (argument : Option NodeId) :
    t.tupleItem? owner name argument =
      match owner, t.itemNumber? name argument with
      | .tuple items, some index => some (items[index]?.elim (.error (.noItem index items.length)) .ok)
      | _, _ => none := by
  unfold tupleItem? itemNumber?
  cases owner with
  | named | unsupported => rfl
  | tuple items =>
    by_cases called : lowered name = "item"
    · simp only [called, if_true]
      cases argument.bind t.shape? with
      | none => rfl
      | some shape =>
        cases shape with
        | number digits =>
          dsimp only
          split
          · cases found : items[decimalValue digits.toList]? <;> simp [found]
          · rfl
        | _ => rfl
    · simp only [called, if_false]

theorem follows_cases {y : NodeId} (h : t.follows? id = some y) :
    ∃ n, t.nodes[id]? = some n ∧ (n.shape = .it ∧ n.scope = some y ∨
      n.shape = .marker ∧ n.direct ∧ n.scope = some y ∨
      (∃ source, n.shape = .property y source ∧ ∀ name argument, t.shape? y ≠ some (.phrase name argument)) ∨
      (∃ filter, n.shape = .whose y filter) ∨ n.shape = .parens y ∨ (∃ rest, n.shape = .collection (y :: rest)) ∨
      ∃ condition elseBranch, n.shape = .conditional condition y elseBranch) := by
  obtain ⟨n, hn⟩ : ∃ n, t.nodes[id]? = some n := by
    cases hn : t.nodes[id]? with
    | none => simp [follows?, shape?, hn] at h
    | some n => exact ⟨n, rfl⟩
  have shape : t.shape? id = some n.shape := by rw [shape?, hn, Option.map_some]
  have scope : t.scope? id = n.scope := by rw [scope?, hn, Option.bind_some]
  have direct : t.isDirect id = n.direct := by rw [isDirect, hn, Option.any_some]
  refine ⟨n, hn, ?_⟩
  simp only [follows?, shape, scope, direct] at h
  cases hs : n.shape with
  | it => simp_all
  | marker => simp_all
  | property accessor source =>
    simp only [hs] at h
    split at h
    · cases h
    · rename_i other
      cases h
      simpa using other
  | collection items => cases items <;> simp_all
  | _ => simp_all

theorem follows_asked {y : NodeId} (h : t.follows? id = some y) : y ∈ t.asked id := by
  obtain ⟨n, hn, hs⟩ := follows_cases h
  simp only [asked, hn]
  rcases hs with ⟨hs, scope⟩ | ⟨hs, direct, scope⟩ | ⟨source, hs, other⟩ | ⟨_, hs⟩ | hs | ⟨_, hs⟩ | ⟨_, _, hs⟩
  all_goals simp only [hs]
  · exact Option.mem_toList.2 scope
  · rw [if_pos direct]
    exact Option.mem_toList.2 scope
  · unfold askedByProperty
    split
    · rename_i phrase
      exact absurd phrase (other _ _)
    · exact List.mem_cons_self
  all_goals exact List.mem_cons_self

theorem typeStep_of_follows {y : NodeId} (h : t.follows? id = some y) : t.typeStep ix ask id = ask y := by
  obtain ⟨n, hn, hs⟩ := follows_cases h
  simp only [typeStep, hn]
  rcases hs with ⟨hs, scope⟩ | ⟨hs, direct, scope⟩ | ⟨source, hs, other⟩ | ⟨_, hs⟩ | hs | ⟨_, hs⟩ | ⟨_, _, hs⟩
  all_goals simp only [hs]
  · rw [receiverType, scope]
  · rw [if_pos direct, receiverType, scope]
  · unfold propertyType
    split
    · rename_i phrase
      exact absurd phrase (other _ _)
    · rfl

theorem typeStep_of_items {items : List NodeId} (h : t.items? id = some items) :
    t.typeStep ix ask id = Ty.tuple <$> items.mapM ask := by
  unfold items? shape? at h
  unfold typeStep
  cases hn : t.nodes[id]? with
  | none => simp [hn] at h
  | some n =>
    simp only [hn, Option.map_some] at h ⊢
    split at h
    · rename_i shape
      cases h
      rw [Option.some_inj.1 shape]
    · rename_i shape
      cases h
      rw [Option.some_inj.1 shape]
      rfl
    · cases h

theorem items_asked {items : List NodeId} (h : t.items? id = some items) : ∀ y ∈ items, y ∈ t.asked id := by
  intro y hy
  unfold items? shape? at h
  unfold asked
  cases hn : t.nodes[id]? with
  | none => simp [hn] at h
  | some n =>
    simp only [hn, Option.map_some] at h ⊢
    split at h
    · rename_i shape
      cases h
      rwa [Option.some_inj.1 shape]
    · cases h
      cases hy
    · cases h

/-- A property whose accessor is a phrase. -/
theorem picks_cases {source : NodeId} {index : Nat} (h : t.picks? id = some (source, index)) :
    ∃ n accessor name argument, t.nodes[id]? = some n ∧ n.shape = .property accessor source ∧
      t.shape? accessor = some (.phrase name argument) ∧ t.itemNumber? name argument = some index := by
  unfold picks? at h
  split at h
  · rename_i accessor source' shape
    split at h
    · rename_i name argument phrase
      obtain ⟨index', found, same⟩ := Option.map_eq_some_iff.1 h
      cases same
      obtain ⟨n, hn, hs⟩ := Option.map_eq_some_iff.1 shape
      exact ⟨n, accessor, name, argument, hn, hs, phrase, found⟩
    · cases h
  · cases h

theorem picks_asked {source : NodeId} {index : Nat} (h : t.picks? id = some (source, index)) :
    source ∈ t.asked id := by
  obtain ⟨n, accessor, name, argument, hn, hs, phrase, -⟩ := picks_cases h
  simp only [asked, hn, hs, askedByProperty, phrase]
  exact List.mem_cons_self

/-- What a phrase is looked up as has a name, unless it is an item of a tuple. -/
theorem propertyType_of_phrase {accessor source : NodeId} {name : String} {argument : Option NodeId} {ty : Ty}
    (phrase : t.shape? accessor = some (.phrase name argument))
    (found : (propertyType t ix ask accessor source).run = some (.ok ty)) :
    ∃ owner, (ask source).run = some (.ok owner) ∧
      ((∃ tys index, owner = .tuple tys ∧ t.itemNumber? name argument = some index ∧ tys[index]? = some ty) ∨
        ty.Single ∧ (owner.Single ∨ t.itemNumber? name argument = none)) := by
  unfold propertyType at found
  simp only [phrase] at found
  obtain ⟨owner, asked, found⟩ := Typing.run_bind_eq_ok found
  refine ⟨owner, asked, ?_⟩
  have looked (h : t.tupleItem? owner name argument = none) : ty.Single := by
    rw [h] at found
    obtain ⟨params, -, found⟩ := Typing.run_bind_eq_ok found
    exact Ty.single_of_property (Option.some_inj.1 found)
  rw [tupleItem?_eq_itemNumber?] at looked found
  cases owner with
  | named | unsupported => exact .inr ⟨looked rfl, .inl trivial⟩
  | tuple tys =>
    cases number : t.itemNumber? name argument with
    | none =>
      simp only [number] at looked
      exact .inr ⟨looked trivial, .inr rfl⟩
    | some index =>
      simp only [number] at found
      cases item : tys[index]? with
      | none => rw [item] at found; cases found
      | some ty' =>
        rw [item] at found
        cases found
        exact .inl ⟨tys, index, rfl, rfl, item⟩

theorem typeStep_of_picks {source : NodeId} {index : Nat} {ty : Ty} (h : t.picks? id = some (source, index))
    (found : (t.typeStep ix ask id).run = some (.ok ty)) :
    ∃ owner, (ask source).run = some (.ok owner) ∧
      ((∃ tys, owner = .tuple tys ∧ tys[index]? = some ty) ∨ ty.Single ∧ owner.Single) := by
  obtain ⟨n, accessor, name, argument, hn, hs, phrase, number⟩ := picks_cases h
  simp only [typeStep, hn, hs] at found
  obtain ⟨owner, asked, result⟩ := propertyType_of_phrase phrase found
  refine ⟨owner, asked, ?_⟩
  rw [number] at result
  rcases result with ⟨tys, _, same, ⟨⟩, item⟩ | ⟨single, owner' | ⟨⟨⟩⟩⟩
  · exact .inl ⟨tys, same, item⟩
  · exact .inr ⟨single, owner'⟩

theorem phraseType_single {n : Node} {name : String} {argument : Option NodeId} :
    (phraseType ix ask n name argument).Yields Ty.Single := by
  have looked (ty : Ty) (params : Option String) :
      (Typing.ofExcept (ty.property ix (lowered name) params)).Yields Ty.Single :=
    .ofExcept fun _ => Ty.single_of_property
  unfold phraseType
  dsimp only
  split
  · exact .pure trivial
  · refine .after fun params => ?_
    split
    · exact .after fun owner => looked owner params
    · split
      · exact .pure trivial
      · split
        · exact .throw _
        · exact .tryCatch (.after fun owner => looked owner params) fun _ => .throw _

/-- Every other node has a name for its type. -/
theorem typeStep_single (follows : t.follows? id = none) (picks : t.picks? id = none) (items : t.items? id = none) :
    (t.typeStep ix ask id).Yields Ty.Single := by
  cases hn : t.nodes[id]? with
  | none => simpa only [typeStep, hn] using .unfinished
  | some n =>
    have shape : t.shape? id = some n.shape := by rw [shape?, hn, Option.map_some]
    have scope : t.scope? id = n.scope := by rw [scope?, hn, Option.bind_some]
    have direct : t.isDirect id = n.direct := by rw [isDirect, hn, Option.any_some]
    simp only [follows?, picks?, items?, shape, scope, direct] at follows picks items
    simp only [typeStep, hn]
    cases hs : n.shape <;> simp only [hs] at follows picks items ⊢
    case it =>
      rw [receiverType, follows]
      exact .throw _
    case marker =>
      split
      · rename_i looked
        rw [if_pos looked] at follows
        rw [receiverType, follows]
        exact .throw _
      · exact .pure trivial
    case phrase => exact phraseType_single
    case property accessor source =>
      split at follows
      · rename_i name argument phrase
        intro ty found
        obtain ⟨owner, -, ⟨_, index, -, number, -⟩ | ⟨single, -⟩⟩ := propertyType_of_phrase phrase found
        · simp only [phrase, number, Option.map_some] at picks
          cases picks
        · exact single
      · cases follows
    case tuple => cases items
    case collection elements => cases elements <;> simp_all
    case whose | parens | conditional => cases follows
    case binary operator =>
      refine .pure ?_
      split <;> trivial
    all_goals exact .pure trivial

end step

end Tree

end InventoryQuery
