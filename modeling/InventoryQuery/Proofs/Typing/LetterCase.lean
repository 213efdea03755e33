import Mathlib.Data.List.Forall2
import InventoryQuery.Proofs.Tree.WellFormed
import InventoryQuery.Proofs.Typing.Termination

/-! Typing does not see the case of letters in phrases. A phrase is read in small letters wherever
it is looked up, the receivers of a tree do not depend on its phrases, and no other form is read by
its letters. -/

namespace InventoryQuery

/-- A capital letter of ASCII and the small one. -/
def CapitalOf (c d : Char) : Prop := 'A' ≤ c ∧ c ≤ 'Z' ∧ d.toNat = c.toNat + 32

def SameLetter (c d : Char) : Prop := c = d ∨ CapitalOf c d ∨ CapitalOf d c

def SameName (a b : String) : Prop := List.Forall₂ SameLetter a.toList b.toList

theorem toNat_toLower (c : Char) :
    c.toLower.toNat = if 65 ≤ c.toNat ∧ c.toNat ≤ 90 then c.toNat + 32 else c.toNat := by
  have capital : c.val ≥ 'A'.val ∧ c.val ≤ 'Z'.val ↔ 65 ≤ c.toNat ∧ c.toNat ≤ 90 := .rfl
  unfold Char.toLower
  by_cases h : 65 ≤ c.toNat ∧ c.toNat ≤ 90
  · rw [dif_pos (capital.2 h), if_pos h]
    have sum : (c.val + ('a'.val - 'A'.val)).toNat = (c.val.toNat + 32) % 2 ^ 32 := UInt32.toNat_add ..
    have low : c.val.toNat ≤ 90 := h.2
    exact sum.trans (Nat.mod_eq_of_lt (by omega))
  · rw [dif_neg (mt capital.1 h), if_neg h]

theorem toLower_eq_iff {c d : Char} : c.toLower = d.toLower ↔ SameLetter c d := by
  have capital (c : Char) : 'A' ≤ c ∧ c ≤ 'Z' ↔ 65 ≤ c.toNat ∧ c.toNat ≤ 90 := .rfl
  rw [← Char.toNat_inj, toNat_toLower, toNat_toLower, SameLetter, CapitalOf, CapitalOf, ← Char.toNat_inj,
    ← and_assoc, ← and_assoc, capital, capital]
  split_ifs <;> omega

theorem lowered_eq_iff {a b : String} : lowered a = lowered b ↔ SameName a b := by
  rw [lowered, lowered, String.ofList_inj, ← List.forall₂_eq_eq_eq, List.forall₂_map_left_iff,
    List.forall₂_map_right_iff]
  simp only [toLower_eq_iff]
  rfl

namespace Tree

/-- Node by node the same form, or phrases with the same argument whose names differ in the case of
letters only. -/
def Recased (t u : Tree) : Prop :=
  ∀ id, t.shape? id = u.shape? id ∨ ∃ a b argument, SameName a b ∧
    t.shape? id = some (.phrase a argument) ∧ u.shape? id = some (.phrase b argument)

theorem size_le_iff (t : Tree) (id : NodeId) : t.size ≤ id ↔ t.shape? id = none := by
  rw [shape?, Option.map_eq_none_iff, Array.getElem?_eq_none_iff]
  rfl

namespace Recased

variable {t u : Tree} (h : t.Recased u)
include h

/-- What does not read phrases is the same for both trees. -/
theorem congr {β : Type} {f : Option (Shape NodeId) → β}
    (blind : ∀ a b argument, f (some (.phrase a argument)) = f (some (.phrase b argument))) (id : NodeId) :
    f (t.shape? id) = f (u.shape? id) := by
  rcases h id with same | ⟨a, b, argument, -, one, other⟩
  · rw [same]
  · rw [one, other, blind a b argument]

theorem size_eq : t.size = u.size := by
  have outside (id : NodeId) : t.size ≤ id ↔ u.size ≤ id := by
    rw [size_le_iff, size_le_iff, ← Option.isNone_iff_eq_none, ← Option.isNone_iff_eq_none,
      h.congr (f := Option.isNone) (fun _ _ _ => rfl)]
  exact Nat.le_antisymm ((outside _).2 le_rfl) ((outside _).1 le_rfl)

theorem children_eq (id : NodeId) : t.children id = u.children id :=
  h.congr (f := fun s => (s.map Shape.children).getD []) (fun _ _ _ => rfl) id

theorem receiver?_eq : t.receiver? = u.receiver? := by
  funext step
  unfold receiver?
  rcases h step.2 with same | ⟨a, b, argument, -, one, other⟩
  · rw [same]
  · rw [one, other]

theorem leavesFiltered_iff (step : NodeId × NodeId) : t.LeavesFiltered step ↔ u.LeavesFiltered step :=
  Iff.of_eq <| h.congr (f := fun s => ∃ filter, s = some (.whose step.1 filter)) (fun _ _ _ => by simp) step.2

theorem leavesAccessor_iff (step : NodeId × NodeId) : t.LeavesAccessor step ↔ u.LeavesAccessor step :=
  Iff.of_eq <| h.congr (f := fun s => ∃ source, s = some (.property step.1 source)) (fun _ _ _ => by simp) step.2

theorem path {id : NodeId} {steps : List (NodeId × NodeId)} (root : t.root = u.root) (path : t.Path id steps) :
    u.Path id steps := by
  induction path with
  | root => exact root ▸ .root
  | up hc _ ih => exact .up (h.children_eq _ ▸ hc) ih

end Recased

section compiled

variable {t u : Tree} (ht : t.Whole) (hu : u.Whole) (h : t.withScopes.Recased u.withScopes)
include ht hu h

theorem Recased.root_eq : t.withScopes.root = u.withScopes.root :=
  Nat.succ.inj (ht.withScopes.root_eq.trans (h.size_eq.trans hu.withScopes.root_eq.symm))

/-- The way to the root tells the settings, and it is the same in both trees. -/
theorem Recased.settings_eq (id : NodeId) :
    t.withScopes.scope? id = u.withScopes.scope? id ∧ t.withScopes.isDirect id = u.withScopes.isDirect id := by
  rcases Nat.lt_or_ge id t.withScopes.size with hid | out
  · obtain ⟨steps, path⟩ := ht.withScopes.exists_path hid
    obtain ⟨scope, direct⟩ := ht.settings_of_path path
    obtain ⟨scope', direct'⟩ := hu.settings_of_path (h.path (h.root_eq ht hu) path)
    refine ⟨by rw [scope, scope', h.receiver?_eq], Bool.eq_iff_iff.2 ?_⟩
    simp only [direct, direct', h.leavesFiltered_iff, h.leavesAccessor_iff]
  · have ends : t.withScopes.nodes[id]? = none := Array.getElem?_eq_none out
    have ends' : u.withScopes.nodes[id]? = none := Array.getElem?_eq_none (h.size_eq.symm.trans_le out)
    simp [scope?, isDirect, ends, ends']

end compiled

section step

variable {t u : Tree} {ix : Index} {ask : NodeId → Typing Ty} {n m : Node}

theorem receiverType_of_scope (scope : n.scope = m.scope) : receiverType ask n = receiverType ask m := by
  unfold receiverType
  rw [scope]

theorem phraseType_of_lowered {a b : String} {argument : Option NodeId} (scope : n.scope = m.scope)
    (direct : n.direct = m.direct) (names : lowered a = lowered b) :
    phraseType ix ask n a argument = phraseType ix ask m b argument := by
  unfold phraseType
  rw [receiverType_of_scope scope, scope, direct, names]

theorem Recased.tupleItem?_eq (h : t.Recased u) {a b : String} (names : lowered a = lowered b) (owner : Ty)
    (argument : Option NodeId) : t.tupleItem? owner a argument = u.tupleItem? owner b argument := by
  unfold tupleItem?
  rw [names]
  cases argument with
  | none => rfl
  | some id =>
    rcases h id with same | ⟨_, _, _, -, one, other⟩
    · rw [Option.bind_some, Option.bind_some, same]
    · rw [Option.bind_some, Option.bind_some, one, other]

theorem Recased.propertyType_eq (h : t.Recased u) (accessor source : NodeId) :
    propertyType t ix ask accessor source = propertyType u ix ask accessor source := by
  unfold propertyType
  rcases h accessor with same | ⟨a, b, argument, names, one, other⟩
  · simp only [same, h.tupleItem?_eq rfl]
  · simp only [one, other, lowered_eq_iff.2 names, h.tupleItem?_eq (lowered_eq_iff.2 names)]

theorem Recased.typeStep_eq (h : t.Recased u) {id : NodeId} (scope : t.scope? id = u.scope? id)
    (direct : t.isDirect id = u.isDirect id) : t.typeStep ix ask id = u.typeStep ix ask id := by
  have form := h id
  unfold typeStep
  simp only [shape?, scope?, isDirect] at form scope direct
  cases hn : t.nodes[id]? with
  | none =>
    cases hm : u.nodes[id]? with
    | none => rfl
    | some m => simp [hn, hm] at form
  | some n =>
    cases hm : u.nodes[id]? with
    | none => simp [hn, hm] at form
    | some m =>
      simp only [hn, hm, Option.map_some, Option.bind_some, Option.any_some, Option.some.injEq] at form scope direct
      rcases form with same | ⟨a, b, argument, names, one, other⟩
      · simp only [same, direct, receiverType_of_scope scope, h.propertyType_eq,
          phraseType_of_lowered scope direct rfl]
      · simp only [one, other, phraseType_of_lowered scope direct (lowered_eq_iff.2 names)]

end step

theorem Recased.typeWithin_eq {t u : Tree} (ht : t.Whole) (hu : u.Whole) (h : t.withScopes.Recased u.withScopes)
    (ix : Index) (steps : Nat) : t.withScopes.typeWithin ix steps = u.withScopes.typeWithin ix steps := by
  induction steps with
  | zero => rfl
  | succ steps ih =>
    funext id
    obtain ⟨scope, direct⟩ := h.settings_eq ht hu id
    rw [typeWithin, typeWithin, ih]
    exact h.typeStep_eq scope direct

end Tree

/-- Two compiled trees that differ in the case of letters in phrases only give the same type or the
same error for every node. -/
theorem type_of_recased (a b : List Char) (t u : Tree) (ht : compile a = .ok t) (hu : compile b = .ok u)
    (h : t.Recased u) (ix : Index) :
    t.size = u.size ∧ ∀ id < t.size, ∃ r, t.typeOf? ix id = some r ∧ u.typeOf? ix id = some r := by
  refine ⟨h.size_eq, fun id hid => ?_⟩
  obtain ⟨t, whole, rfl⟩ := whole_of_compile ht
  obtain ⟨u, whole', rfl⟩ := whole_of_compile hu
  obtain ⟨r, hr⟩ := whole.typeWithin_finished ix hid (whole.withScopes.idxOf_order_lt hid)
  have same : t.withScopes.typeOf? ix id = u.withScopes.typeOf? ix id := by
    rw [Tree.typeOf?, Tree.typeOf?, h.size_eq, h.typeWithin_eq whole whole']
  exact ⟨r, hr, same ▸ hr⟩

theorem type_of_recased_item :
    let tree (item truth name : String) : Tree :=
      ⟨#[⟨.number "1", ⟨5, 6⟩, some 5, false⟩, ⟨.phrase item (some 0), ⟨0, 6⟩, some 5, true⟩,
        ⟨.phrase truth none, ⟨12, 16⟩, none, false⟩, ⟨.phrase name none, ⟨18, 22⟩, none, false⟩,
        ⟨.tuple [2, 3], ⟨12, 22⟩, none, false⟩, ⟨.parens 4, ⟨11, 23⟩, none, false⟩,
        ⟨.property 1 5, ⟨0, 23⟩, none, false⟩], 6⟩
    let t := tree "Item" "TRUE" "Name"
    let u := tree "item" "True" "naME"
    compile "Item 1 of (TRUE, Name)".toList = .ok t ∧ compile "item 1 of (True, naME)".toList = .ok u ∧
      t.Recased u ∧
      ∀ ix, t.size = u.size ∧ ∀ id < t.size, ∃ r, t.typeOf? ix id = some r ∧ u.typeOf? ix id = some r := by
  intro tree t u
  have one : compile "Item 1 of (TRUE, Name)".toList = .ok t := by decide +kernel
  have other : compile "item 1 of (True, naME)".toList = .ok u := by decide +kernel
  have recased : t.Recased u := by
    intro id
    match id with
    | 1 => exact .inr ⟨"Item", "item", some 0, lowered_eq_iff.1 (by decide +kernel), rfl, rfl⟩
    | 2 => exact .inr ⟨"TRUE", "True", none, lowered_eq_iff.1 (by decide +kernel), rfl, rfl⟩
    | 3 => exact .inr ⟨"Name", "naME", none, lowered_eq_iff.1 (by decide +kernel), rfl, rfl⟩
    | 0 | 4 | 5 | 6 => exact .inl rfl
    | _ + 7 => exact .inl rfl
  exact ⟨one, other, recased, type_of_recased _ _ t u one other recased⟩

end InventoryQuery
