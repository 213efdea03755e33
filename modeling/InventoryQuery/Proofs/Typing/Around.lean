import InventoryQuery.Proofs.Tree.Frame
import InventoryQuery.Proofs.Typing.Compositional

/-! The receiver of a part, on the way down to it. It depends on what is around the part only and not
on the part itself, so that parts in the same place of two trees have receivers of the same type. -/

namespace InventoryQuery

namespace Expr

/-- The receiver that a node hands to its part at a place, by its type, and whether the part is looked
up on it. -/
def handed (ix : Index) (s : Shape Expr) (k : Nat) (around : Option Answer × Bool) :
    Option Answer × Bool :=
  match s, k with
  | .property _ source, 0 => (some (source.type ix around.1 false), true)
  | .whose _ _, 0 => around
  | .whose source _, 1 => (some (source.type ix around.1 around.2), false)
  | _, _ => (around.1, false)

end Expr

namespace Frame

/-- What the open part is handed does not depend on what it is filled with. -/
theorem handed_fill (f : Frame) (e e' : Expr) (ix : Index) (around : Option Answer × Bool) :
    Expr.handed ix (f.fill e).shape f.place around = Expr.handed ix (f.fill e').shape f.place around := by
  obtain ⟨shape, single⟩ := f
  cases shape with
  | property accessor source =>
    cases accessor <;> cases source <;> first | rfl | cases single
  | whose source filter =>
    cases source <;> cases filter <;> rfl
  | _ => rfl

/-- What the open part is handed. -/
def hands (f : Frame) (ix : Index) (around : Option Answer × Bool) : Option Answer × Bool :=
  Expr.handed ix (f.fill default).shape f.place around

end Frame

def handedThrough (ix : Index) (frames : List Frame) (around : Option Answer × Bool) :
    Option Answer × Bool := frames.foldl (fun around f => f.hands ix around) around

namespace Tree

/-- The receiver of a node, by its type, and whether the node is looked up on it. -/
def around (t : Tree) (ix : Index) (n : Node) : Option Answer × Bool :=
  (n.scope.bind (t.typeOf? ix), n.direct)

namespace Whole

variable {u : Tree} (h : u.Whole)
include h

theorem typeOf?_around (ix : Index) {id : NodeId} {n : Node}
    (hn : u.withScopes.nodes[id]? = some n) :
    u.withScopes.typeOf? ix id = some ((u.withScopes.expr id).type ix
      (u.withScopes.around ix n).1 (u.withScopes.around ix n).2) := h.typeOf?_eq_type ix hn

/-- The part at a place of a node has what the node hands to that place. -/
theorem exists_part {id : NodeId} {n : Node} (hn : u.withScopes.nodes[id]? = some n) {k : Nat}
    {e : Expr} (he : (u.withScopes.expr id).children[k]? = some e) :
    ∃ c m, (u.withScopes.children id)[k]? = some c ∧ u.withScopes.nodes[c]? = some m ∧
      u.withScopes.expr c = e ∧ ∀ ix, u.withScopes.around ix m =
        Expr.handed ix (u.withScopes.expr id).shape k (u.withScopes.around ix n) := by
  have form := expr_eq h.withScopes.downward hn
  rw [form, Expr.children, Expr.shape, Shape.children_map, List.getElem?_map] at he
  obtain ⟨c, hc, rfl⟩ := Option.map_eq_some_iff.1 he
  -- what one of the parts has been handed
  have settings {c : NodeId} {scope : Option NodeId} {direct : Bool}
      (part : (c, scope, direct) ∈ handedDown n) : ∃ m, u.withScopes.nodes[c]? = some m ∧
        ∀ ix, u.withScopes.around ix m = (scope.bind (u.withScopes.typeOf? ix), direct) := by
    obtain ⟨m, hm, rfl, rfl⟩ := h.withScopes_part hn part
    exact ⟨m, hm, fun _ => rfl⟩
  suffices found : ∃ m, u.withScopes.nodes[c]? = some m ∧ ∀ ix, u.withScopes.around ix m =
      Expr.handed ix (n.shape.map u.withScopes.expr) k (u.withScopes.around ix n) by
    obtain ⟨m, hm, same⟩ := found
    exact ⟨c, m, by rw [children_eq hn, hc], hm, rfl, fun ix => by rw [same, form]; rfl⟩
  cases hs : n.shape with
  | property accessor source =>
    rw [hs] at hc
    have access : (accessor, some source, true) ∈ handedDown n := by simp [handedDown, hs]
    have supply : (source, n.scope, false) ∈ handedDown n := by simp [handedDown, hs]
    rcases k with _ | _ | k
    · cases hc
      obtain ⟨s, hs, owner⟩ := settings supply
      obtain ⟨m, hm, same⟩ := settings access
      refine ⟨m, hm, fun ix => ?_⟩
      rw [same, Option.bind_some, h.typeOf?_around ix hs, owner]
      rfl
    · cases hc
      exact settings supply
    · cases hc
  | whose source filter =>
    rw [hs] at hc
    have supply : (source, n.scope, n.direct) ∈ handedDown n := by simp [handedDown, hs]
    have choice : (filter, some source, false) ∈ handedDown n := by simp [handedDown, hs]
    rcases k with _ | _ | k
    · cases hc
      exact settings supply
    · cases hc
      obtain ⟨s, hs, owner⟩ := settings supply
      obtain ⟨m, hm, same⟩ := settings choice
      refine ⟨m, hm, fun ix => ?_⟩
      rw [same, Option.bind_some, h.typeOf?_around ix hs, owner]
      rfl
    · cases hc
  | _ =>
    have mem := List.mem_of_getElem? hc
    exact settings (by simpa [handedDown, hs] using hs ▸ mem)

/-- The way through the frames leads to what is inside them, and what it has been handed does not
depend on that. -/
theorem exists_inside (frames : List Frame) {e : Expr} {id : NodeId} {n : Node}
    (hn : u.withScopes.nodes[id]? = some n) (he : u.withScopes.expr id = plug frames e) :
    ∃ c m, u.withScopes.follow? id (frames.map Frame.place) = some c ∧
      u.withScopes.nodes[c]? = some m ∧ u.withScopes.expr c = e ∧ ∀ ix,
        u.withScopes.around ix m = handedThrough ix frames (u.withScopes.around ix n) := by
  induction frames generalizing id n with
  | nil => exact ⟨id, n, rfl, hn, he, fun _ => rfl⟩
  | cons f frames ih =>
    obtain ⟨c, m, hc, hm, below, same⟩ := h.exists_part hn (k := f.place) (e := plug frames e)
      (by rw [he]; exact f.children_fill _)
    obtain ⟨b, k, way, hk, inside, handed⟩ := ih hm below
    refine ⟨b, k, ?_, hk, inside, fun ix => ?_⟩
    · rw [List.map_cons, follow?, hc]
      exact way
    · rw [handed, same, he]
      exact congrArg _ (f.handed_fill _ _ ix _)

end Whole

end Tree

end InventoryQuery
