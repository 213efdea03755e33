import Mathlib.Data.List.Forall2
import InventoryQuery.Proofs.Tree.Fold

/-! Two nodes are alike if they differ in numbers, places and receivers only: they have the same form
with the same texts, and parts that are alike, in the same order. In tables where every part has a
smaller number than the whole, these are the nodes that stand for the same expression. -/

namespace InventoryQuery

namespace Shape

variable {α β γ : Type}

theorem toList_injective : Function.Injective (@Option.toList α) :=
  Function.LeftInverse.injective fun _ => Option.head?_toList

/-- The form without its parts. It still has its texts, its operator and as many places. -/
def frame (s : Shape α) : Shape Unit := s.map fun _ => ()

theorem length_children_frame (s : Shape α) : s.frame.children.length = s.children.length := by
  rw [frame, children_map, List.length_map]

theorem map_eq_map_iff {s : Shape α} {s' : Shape β} {f : α → γ} {g : β → γ} :
    s.map f = s'.map g ↔ s.frame = s'.frame ∧ s.children.map f = s'.children.map g := by
  constructor
  · intro same
    refine ⟨?_, by rw [← children_map, same, children_map]⟩
    have frames := congrArg (Shape.map fun _ => ()) same
    rwa [map_map, map_map] at frames
  · rintro ⟨frames, parts⟩
    cases s with
    | phrase name argument =>
      cases s' with
      | phrase name' argument' =>
        have names : name = name' := (phrase.inj frames).1
        have arguments : (argument.map f).toList = (argument'.map g).toList := by
          rwa [Option.toList_map, Option.toList_map]
        rw [map, map, names, toList_injective arguments]
      | _ => cases frames
    | tuple items =>
      cases s' with
      | tuple items' => exact congrArg tuple parts
      | _ => cases frames
    | collection items =>
      cases s' with
      | collection items' => exact congrArg collection parts
      | _ => cases frames
    | _ =>
      cases s' <;> cases frames
      all_goals simp_all [map, children]

end Shape

namespace Tree

inductive Alike (t u : Tree) : NodeId → NodeId → Prop
  | node {x y : NodeId} {s s' : Shape NodeId} : t.shape? x = some s → u.shape? y = some s' →
    s.frame = s'.frame → (∀ a b, (a, b) ∈ s.children.zip s'.children → Alike t u a b) →
    Alike t u x y

section alike

variable {t u : Tree} {x y : NodeId} {s s' : Shape NodeId}

/-- The same expressions stand for the parts if they do for each part and the other one's part at its
place. -/
theorem map_expr_eq_iff : s.map t.expr = s'.map u.expr ↔
    s.frame = s'.frame ∧ ∀ a b, (a, b) ∈ s.children.zip s'.children → t.expr a = u.expr b := by
  rw [Shape.map_eq_map_iff, ← List.forall₂_eq_eq_eq, List.forall₂_map_left_iff,
    List.forall₂_map_right_iff, List.forall₂_iff_zip]
  refine and_congr_right fun frames => and_iff_right ?_
  rw [← Shape.length_children_frame, frames, Shape.length_children_frame]

variable (ht : Downward t.nodes) (hu : Downward u.nodes)
include ht

theorem expr_of_shape? (hs : t.shape? x = some s) : t.expr x = .node (s.map t.expr) := by
  obtain ⟨n, hn, rfl⟩ := Option.map_eq_some_iff.1 hs
  exact expr_eq ht hn

theorem exists_shape?_of_mem_children (hs : t.shape? x = some s) {child : NodeId}
    (hc : child ∈ s.children) : child < x ∧ ∃ r, t.shape? child = some r := by
  obtain ⟨n, hn, rfl⟩ := Option.map_eq_some_iff.1 hs
  have low := ht x n hn child hc
  have inside : child < t.nodes.size := Nat.lt_trans low (Array.getElem?_eq_some_iff.1 hn).1
  exact ⟨low, _, by rw [shape?, Array.getElem?_eq_getElem inside]; rfl⟩

include hu

theorem Alike.expr_eq (h : Alike t u x y) : t.expr x = u.expr y := by
  induction h with
  | node hs hs' frames _ ih =>
    rw [expr_of_shape? ht hs, expr_of_shape? hu hs', map_expr_eq_iff.2 ⟨frames, ih⟩]

theorem alike_of_expr_eq (hs : t.shape? x = some s) (hs' : u.shape? y = some s')
    (h : t.expr x = u.expr y) : Alike t u x y := by
  induction x using Nat.strongRecOn generalizing y s s' with
  | ind x ih =>
    rw [expr_of_shape? ht hs, expr_of_shape? hu hs', Expr.node.injEq, map_expr_eq_iff] at h
    refine .node hs hs' h.1 fun a b hab => ?_
    obtain ⟨ha, hb⟩ := List.of_mem_zip hab
    obtain ⟨low, r, hr⟩ := exists_shape?_of_mem_children ht hs ha
    obtain ⟨-, r', hr'⟩ := exists_shape?_of_mem_children hu hs' hb
    exact ih a low hr hr' (h.2 a b hab)

end alike

end Tree

end InventoryQuery
