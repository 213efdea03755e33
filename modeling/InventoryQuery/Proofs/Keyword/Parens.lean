import InventoryQuery.Proofs.Layout.Rewriting

/-! Rewriting over a parenthesis. A parenthesis ends a word but is no blank, so no phrase goes on
behind it, and it is no part of a phrase itself. Outside double quotes, what stands before it and what
stands behind it are rewritten each by itself. -/

namespace InventoryQuery

def IsParen (c : Char) : Prop := c = '(' ∨ c = ')'

namespace Rewrite

variable {c : Char} (hc : IsParen c)

include hc

theorem isBoundary_of_isParen : isBoundary c := by rcases hc with rfl | rfl <;> decide

theorem not_isBlank_of_isParen : isBlank c = false := by rcases hc with rfl | rfl <;> decide

/-- A phrase is found in front of the parenthesis exactly if it is found without what follows. -/
theorem reach?_append_paren {ws : List (List Char)} (hw : ∀ w ∈ ws, ∀ d ∈ w, Inner d)
    (hne : ws ≠ []) (cs q : List Char) : reach? ws (cs ++ c :: q) = reach? ws cs := by
  induction ws generalizing cs with
  | nil => exact absurd rfl hne
  | cons w ws ih =>
    obtain ⟨inner, others⟩ := List.forall_mem_cons.1 hw
    cases ws with
    | nil => exact reach?_append_boundary (isBoundary_of_isParen hc) inner cs q
    | cons v ws =>
      have outside : c ∉ w := fun mem => by
        have := (inner c mem).1
        rw [isBoundary_of_isParen hc] at this
        cases this
      have blank : isBlank c = false := not_isBlank_of_isParen hc
      rw [reach?_cons_cons, reach?_cons_cons, isPrefixOf?_append_of_not_mem outside, Option.bind_map]
      refine congrArg _ (funext fun rest => ?_)
      -- the gap behind the first word ends before the parenthesis
      rw [Function.comp_apply, takeWhile_append_stop blank, dropWhile_append_stop blank,
        ih others (by simp)]

theorem applyAll_append_paren {rules : List Rewrite} (hp : ∀ r ∈ rules, r.Plain)
    (hs : ∀ r ∈ rules, r.Solid) {xs : List Char} (closed : quoteOpen false xs = false)
    (ys : List Char) : applyAll rules (xs ++ c :: ys) = applyAll rules xs ++ c :: applyAll rules ys := by
  have found : ∀ r ∈ rules, ∀ s, s <:+ xs → s ≠ [] →
      reach? r.words (s ++ c :: ys) = reach? r.words s :=
    fun r hr s _ _ => reach?_append_paren hc (hs r hr) (hp r hr).1 s ys
  rw [applyAll, applyFrom_append_of_same hp false true xs found, closed,
    applyFrom_boundary hp hs (isBoundary_of_isParen hc)]
  rfl

end Rewrite

open Rewrite

theorem rewriteKeywords_append_paren {c : Char} (hc : IsParen c) {xs : List Char}
    (closed : quoteOpen false xs = false) (ys : List Char) :
    rewriteKeywords (xs ++ c :: ys) = rewriteKeywords xs ++ c :: rewriteKeywords ys := by
  have closed' : quoteOpen false (applyAll dropArticles xs) = false := by
    rw [applyAll, quoteOpen_applyFrom plain_dropArticles, closed]
  unfold rewriteKeywords
  rw [applyAll_append_paren hc plain_dropArticles solid_dropArticles closed,
    applyAll_append_paren hc plain_writeKeywords solid_writeKeywords closed']

/-- A parenthesis outside double quotes parts a text in two that are rewritten each by itself. -/
theorem rewriteKeywords_parted {c : Char} (paren : c = '(' ∨ c = ')') (xs ys : List Char)
    (even : xs.count '"' % 2 = 0) :
    rewriteKeywords (xs ++ c :: ys) = rewriteKeywords xs ++ c :: rewriteKeywords ys := by
  refine rewriteKeywords_append_paren paren ?_ ys
  rw [quoteOpen_eq_count, even]
  rfl

/-- A phrase ends at the parenthesis, an article stands behind it, and both sides could go on. -/
theorem rewriteKeywords_parted_phrase :
    let xs := "\"a (\" is not".toList
    let ys := "a equal to b)".toList
    xs.count '"' % 2 = 0 ∧ rewriteKeywords (xs ++ '(' :: ys) = rewriteKeywords xs ++ '(' :: rewriteKeywords ys ∧
      rewriteKeywords (xs ++ '(' :: ys) = "\"a (\" $is-not( equal to b)".toList := by
  intro xs ys
  have even : xs.count '"' % 2 = 0 := by decide +kernel
  exact ⟨even, rewriteKeywords_parted (.inl rfl) xs ys even, by decide +kernel⟩

end InventoryQuery
