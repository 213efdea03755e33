import InventoryQuery.Keyword.Rewriting
import InventoryQuery.Proofs.Grammar.Building
import InventoryQuery.Tree.Rendering

/-! The text of an expression with its operators spelled in a way of their own, and names, numbers
and strings as they are. With the operators left alone this is the rendering; with each of them
rewritten by itself it is what rewriting makes of a rendering in which nothing else is reserved. -/

namespace InventoryQuery

namespace Expr

mutual

def spell (say : List Char → List Char) : Expr → List Char
  | node (.string value) => '"' :: (value.toList ++ ['"'])
  | node (.number digits) => digits.toList
  | node .it => say "it".toList
  | node (.phrase name none) => name.toList
  | node (.phrase name (some argument)) => name.toList ++ ' ' :: argument.spell say
  | node (.property accessor source) =>
    accessor.spell say ++ ' ' :: (say "of".toList ++ ' ' :: source.spell say)
  | node (.whose source filter) =>
    source.spell say ++ ' ' :: (say "whose".toList ++ ' ' :: filter.spell say)
  | node (.parens content) => '(' :: (content.spell say ++ [')'])
  | node (.cast source target) =>
    source.spell say ++ ' ' :: (say "as".toList ++ ' ' :: target.toList)
  | node (.unary .minus operand) => '-' :: operand.spell say
  | node (.unary operator operand) => say operator.spelling.toList ++ ' ' :: operand.spell say
  | node (.binary operator left right) =>
    left.spell say ++ ' ' :: (say operator.spelling.toList ++ ' ' :: right.spell say)
  | node (.tuple items) => spellAll say ',' items
  | node (.collection items) => spellAll say ';' items
  | node (.conditional condition thenBranch elseBranch) =>
    say "if".toList ++ ' ' :: (condition.spell say ++ ' ' :: (say "then".toList ++
      ' ' :: (thenBranch.spell say ++ ' ' :: (say "else".toList ++ ' ' :: elseBranch.spell say))))
  | node .marker => ['?']

def spellAll (say : List Char → List Char) (separator : Char) : List Expr → List Char
  | [] => []
  | [e] => e.spell say
  | e :: es => e.spell say ++ separator :: ' ' :: spellAll say separator es

end

inductive Everywhere (P : Shape Expr → Prop) : Expr → Prop
  | node {s : Shape Expr} : P s → (∀ e ∈ s.children, Everywhere P e) → Everywhere P (.node s)

theorem Everywhere.mono {P Q : Shape Expr → Prop} {e : Expr} (h : e.Everywhere P)
    (imp : ∀ s, P s → Q s) : e.Everywhere Q := by
  induction h with
  | node hs _ ih => exact .node (imp _ hs) ih

theorem Everywhere.and {P Q : Shape Expr → Prop} {e : Expr} (hp : e.Everywhere P)
    (hq : e.Everywhere Q) : e.Everywhere fun s => P s ∧ Q s := by
  induction hp with
  | node hs _ ih =>
    cases hq with
    | node hs' parts' => exact .node ⟨hs, hs'⟩ fun c hc => ih c hc (parts' c hc)

theorem Everywhere.shape {P : Shape Expr → Prop} {s : Shape Expr} (h : (Expr.node s).Everywhere P) :
    P s := by
  cases h with
  | node hs => exact hs

theorem Everywhere.part {P : Shape Expr → Prop} {s : Shape Expr} (h : (Expr.node s).Everywhere P)
    {e : Expr} (he : e ∈ s.children) : e.Everywhere P := by
  cases h with
  | node _ parts => exact parts e he

/-- An expression is done when its parts are. -/
theorem parts_induction {motive : Expr → Prop}
    (node : ∀ s, (∀ e ∈ Shape.children s, motive e) → motive (.node s)) (e : Expr) : motive e := by
  induction hk : e.height using Nat.strongRecOn generalizing e with
  | ind k ih =>
    cases e with
    | node s => exact node s fun c hc => ih _ (hk ▸ height_lt_of_mem_children hc) c rfl

theorem spellAll_id {separator : Char} {es : List Expr}
    (h : ∀ e ∈ es, e.display.toList = e.spell id) :
    (displayAll (String.ofList [separator, ' ']) es).toList = spellAll id separator es := by
  induction es with
  | nil => rfl
  | cons e es ih =>
    obtain ⟨first, rest⟩ := List.forall_mem_cons.1 h
    cases es with
    | nil => exact first
    | cons f es =>
      rw [displayAll, spellAll, String.toList_append, String.toList_append, first, ih rest]
      · simp
      · simp
      · simp

/-- The rendering leaves the operators alone. -/
theorem display_eq (e : Expr) : e.display.toList = e.spell id := by
  induction e using parts_induction with
  | node s ih =>
    cases s with
    | tuple items => exact spellAll_id ih
    | collection items => exact spellAll_id ih
    | phrase name argument =>
      cases argument with
      | none => rfl
      | some argument => simp [display, spell, ih argument (by simp [Shape.children])]
    | unary operator operand =>
      have part := ih operand (by simp [Shape.children])
      cases operator <;> simp [display, spell, PrefixOperator.spelling, part]
    | _ => simp_all [display, spell, Shape.children]

end Expr

end InventoryQuery
