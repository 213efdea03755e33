import InventoryQuery.Proofs.Grammar.Acceptance
import InventoryQuery.Proofs.Keyword.Joining
import InventoryQuery.Proofs.Token.Joining
import InventoryQuery.Proofs.Tree.Preorder
import InventoryQuery.Proofs.Tree.Scope

/-! What is known of every text that compiles: its rewritten form is accepted, all its tokens are
finished, and its quotes are closed. -/

namespace InventoryQuery

open Grammar

theorem exists_parse_of_compile {text : List Char} {t : Tree} (h : compile text = .ok t) :
    ∃ u, parse (rewriteKeywords text) = .ok u ∧ t = u.withScopes := by
  unfold compile at h
  cases hp : parse (rewriteKeywords text) with
  | error e => rw [hp] at h; cases h
  | ok u =>
    rw [hp] at h
    cases h
    exact ⟨u, rfl, rfl⟩

theorem compile_eq_ok {p : List Char} {t : Tree} (h : compile p = .ok t) :
    ∃ u, parse (rewriteKeywords p) = .ok u ∧ t.rootExpr = u.rootExpr := by
  obtain ⟨u, hu, rfl⟩ := exists_parse_of_compile h
  exact ⟨u, hu, u.rootExpr_withScopes⟩

/-- The tree is one tree, to which the receivers have been added. -/
theorem whole_of_compile {text : List Char} {t : Tree} (h : compile text = .ok t) :
    ∃ u : Tree, u.Whole ∧ t = u.withScopes := by
  obtain ⟨u, hu, rfl⟩ := exists_parse_of_compile h
  exact ⟨u, whole_of_parse hu, rfl⟩

theorem valid_of_compile {text : List Char} {t : Tree} (h : compile text = .ok t) :
    ∀ u ∈ lexemes (rewriteKeywords text), u.kind ≠ .invalid := by
  obtain ⟨v, hv, -⟩ := compile_eq_ok h
  obtain ⟨n, -, -, hd, -⟩ := derives_of_parse hv
  intro u hu hk
  have mem : u ∈ (tokens (rewriteKeywords text)).dropLast :=
    (joins_phrases _).mem_of_mem hu (by rw [hk]; decide) (by rw [hk]; decide)
  have := hd.readable u mem
  rw [hk] at this
  cases this

theorem quotes_closed_of_compile {text : List Char} {t : Tree} (h : compile text = .ok t) :
    quoteOpen false text = false := by
  rw [← quoteOpen_rewriteKeywords]
  exact Lexeme.quoteOpen_of_valid (valid_of_compile h)

end InventoryQuery
