import Mathlib.Logic.Relation
import InventoryQuery.Proofs.Layout.Parsing
import InventoryQuery.Proofs.Layout.Rewriting
import InventoryQuery.Tree.Rendering

/-! Layout and articles are of no account: neither for the tree of a text that compiles nor for the
reason why another one does not. -/

namespace InventoryQuery

theorem outcome_compile (text : List Char) :
    outcome (compile text) = outcome (parse (rewriteKeywords text)) := by
  unfold compile
  cases parse (rewriteKeywords text) with
  | error e => rfl
  | ok t => exact congrArg Except.ok t.rootExpr_withScopes

theorem outcome_relaid {a b : List Char} (h : Relaid a b) : outcome (compile a) = outcome (compile b) := by
  rw [outcome_compile, outcome_compile]
  exact outcome_parseTokens (sense_tokens (rewriteKeywords_relaid h))

/-- Whatever is changed of the layout, step by step, the text compiles to a tree of the same shape, or
fails with the same code. -/
theorem layout_irrelevant (a b : List Char) (h : Relation.ReflTransGen Relaid a b) :
    (∃ t u, compile a = .ok t ∧ compile b = .ok u ∧ t.rootExpr.sameShape u.rootExpr) ∨
      ∃ e e', compile a = .error e ∧ compile b = .error e' ∧ e.code = e'.code := by
  have same : outcome (compile a) = outcome (compile b) := by
    induction h with
    | refl => rfl
    | tail _ step ih => exact ih.trans (outcome_relaid step)
  cases ha : compile a with
  | ok t =>
    cases hb : compile b with
    | ok u =>
      rw [ha, hb] at same
      have shape : t.rootExpr = u.rootExpr := Except.ok.inj same
      refine .inl ⟨t, u, rfl, rfl, ?_⟩
      rw [shape, Expr.sameShape]
      exact beq_self_eq_true _
    | error => rw [ha, hb] at same; cases same
  | error e =>
    cases hb : compile b with
    | ok => rw [ha, hb] at same; cases same
    | error e' =>
      rw [ha, hb] at same
      exact .inr ⟨e, e', rfl, rfl, Except.error.inj same⟩

/-- The gap within a reserved phrase is widened by a line break, then an article goes behind the
parenthesis. -/
theorem layout_irrelevant_phrase :
    let a := "(x is".toList ++ " ".toList ++ "not \"a  b\")".toList
    let b := "(".toList ++ ("an".toList ++ ' ' :: "x is \n not \"a  b\")".toList)
    Relation.ReflTransGen Relaid a b ∧
    ((∃ t u, compile a = .ok t ∧ compile b = .ok u ∧ t.rootExpr.sameShape u.rootExpr) ∨
      ∃ e e', compile a = .error e ∧ compile b = .error e' ∧ e.code = e'.code) := by
  intro a b
  have gap : Relaid a ("(x is".toList ++ " \n ".toList ++ "not \"a  b\")".toList) :=
    .blanks _ _ _ _ ⟨by decide, by simp⟩ ⟨by decide, by simp⟩ (.inl rfl)
  have article : Relaid ("(x is".toList ++ " \n ".toList ++ "not \"a  b\")".toList) b :=
    .article "(".toList _ "x is \n not \"a  b\")".toList (by simp) (by simp) (.inl rfl)
  have steps : Relation.ReflTransGen Relaid a b := .tail (.single gap) article
  exact ⟨steps, layout_irrelevant a b steps⟩

end InventoryQuery
