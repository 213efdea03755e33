import InventoryQuery.Grammar.Compile
import InventoryQuery.Proofs.Grammar.Completeness
import InventoryQuery.Proofs.Grammar.Soundness
import InventoryQuery.Proofs.Token.Content
import InventoryQuery.Proofs.Tree.Preorder

/-! A text is accepted exactly if its tokens can be derived within the two limits, and the tree that
is built is the expression of the derivation. -/

namespace InventoryQuery

open Grammar

/-- A sentence is read up to its end. -/
theorem whole_meets {ts : List Token} {t : Token} {e : Expr} {n : Nat}
    (h : Derives (.rule .expression) ts e n) (ht : t.kind = .endOfInput) :
    Meets whole (.initial (ts ++ [t])) n [t] fun a s => Holds s [(a, e)] := by
  have expression : Meets (run .expression) (.initial (ts ++ [t])) n [t]
      fun a s => Holds s [(a, e)] := by
    unfold Meets run
    exact h.followed _ (.initial (ts ++ [t])) [t] [] rfl rfl (by simp [ht, closing, Rule.looseness])
      (.initial _)
  refine .bind_last expression fun a s hs _ ha => .peek ?_
  rw [if_pos (by rw [here_cons hs, ht])]
  exact .pure hs ha

/-- A sentence is accepted unless it passes one of the limits, and then that is the error. -/
theorem parseTokens_of_derives {ts : List Token} {t : Token} {e : Expr} {n : Nat}
    (h : Derives (.rule .expression) ts e n) (ht : t.kind = .endOfInput) :
    (n ≤ maxNesting ∧ e.height ≤ maxHeight ∧
      ∃ root s, parseTokens (ts ++ [t]) = .ok ⟨s.nodes, root⟩ ∧ Holds s [(root, e)]) ∨
    ((maxNesting < n ∨ maxHeight < e.height) ∧ ∃ err, parseTokens (ts ++ [t]) = .error err ∧
      err.code = .nestedTooDeeply) := by
  have meets := whole_meets h ht
  unfold Meets at meets
  unfold parseTokens
  cases hw : whole (.initial (ts ++ [t])) with
  | error err s =>
    rw [hw] at meets
    exact .inr ⟨.inl meets.1, err, rfl, meets.2⟩
  | ok root s =>
    rw [hw] at meets
    obtain ⟨hn, -, -, holds⟩ := meets
    have high := holds.tooHigh
    simp only [List.mem_singleton, exists_eq_left] at high
    dsimp only
    cases hs : s.tooHigh with
    | some span => exact .inr ⟨.inr (high.1 (by rw [hs]; rfl)), _, rfl, rfl⟩
    | none =>
      have low : ¬ maxHeight < e.height := fun hlt => by
        have := high.2 hlt
        rw [hs] at this
        cases this
      exact .inl ⟨hn, Nat.not_lt.1 low, root, s, rfl, holds⟩

/-- What has been read in full is a sentence. -/
theorem derivable_of_whole {ts : List Token} {root : NodeId} {s : State}
    (h : whole (.initial ts) = .ok root s) :
    s.here.kind = .endOfInput ∧ ∃ c, ts = c ++ s.rest ∧ Derivable (.rule .expression) c := by
  have sound := faithful_run .expression (.initial ts)
  unfold Sound at sound
  rw [whole, bind_apply] at h
  cases hr : run .expression (.initial ts) with
  | error err u => rw [hr] at h; cases h
  | ok a u =>
    rw [hr] at h sound
    simp only [peek_bind] at h
    split at h
    · cases h
      rename_i hk
      exact ⟨hk, sound⟩
    · cases h

theorem readable_of_derivable {ts : List Token} (h : Derivable (.rule .expression) ts) :
    ∀ t ∈ ts, t.kind ≠ .endOfInput := by
  obtain ⟨e, n, h⟩ := h
  exact fun t ht => ne_endOfInput_of_readable (h.readable t ht)

theorem derivable_of_parse {text : List Char} {t : Tree} (h : parse text = .ok t) :
    Derivable (.rule .expression) (tokens text).dropLast := by
  unfold parse parseTokens at h
  split at h
  · cases h
  rename_i root s hw
  obtain ⟨hk, c, hc, hd⟩ := derivable_of_whole hw
  rw [tokens_eq] at hc
  rw [here_kind] at hk
  obtain ⟨rfl, -⟩ := append_eof_inj hc rfl (fun t => kind_ne_endOfInput)
    (readable_of_derivable hd) hk
  exact hd

theorem parse_of_derives {text : List Char} {e : Expr} {n : Nat}
    (h : Derives (.rule .expression) (tokens text).dropLast e n) :
    (n ≤ maxNesting ∧ e.height ≤ maxHeight ∧ ∃ root s, parse text = .ok ⟨s.nodes, root⟩ ∧
      Holds s [(root, e)]) ∨
    ((maxNesting < n ∨ maxHeight < e.height) ∧ ∃ err, parse text = .error err ∧
      err.code = .nestedTooDeeply) := by
  have either := parseTokens_of_derives h (t := Token.endOf text) rfl
  rwa [← tokens_eq] at either

theorem Grammar.Holds.rootExpr {s : State} {root : NodeId} {e : Expr} (h : Holds s [(root, e)]) :
    Tree.rootExpr ⟨s.nodes, root⟩ = e := h.reads (root, e) (List.mem_singleton.2 rfl)

/-- What a tree that was accepted has been built from, and what is known of its table. -/
theorem derives_of_parse {text : List Char} {t : Tree} (h : parse text = .ok t) :
    ∃ n, n ≤ maxNesting ∧ t.rootExpr.height ≤ maxHeight ∧
      Derives (.rule .expression) (tokens text).dropLast t.rootExpr n ∧
      ∃ s, Holds s [(t.root, t.rootExpr)] ∧ s.nodes = t.nodes := by
  obtain ⟨e, n, hd⟩ := derivable_of_parse h
  rcases parse_of_derives hd with ⟨hn, he, root, s, ht, holds⟩ | ⟨-, err, herr, -⟩
  · cases h.symm.trans ht
    rw [holds.rootExpr]
    exact ⟨n, hn, he, hd, s, holds, rfl⟩
  · cases h.symm.trans herr

/-- All nodes hang together below the root. -/
theorem whole_of_parse {text : List Char} {t : Tree} (h : parse text = .ok t) : t.Whole := by
  obtain ⟨n, -, -, -, s, holds, nodes⟩ := derives_of_parse h
  unfold Tree.Whole
  rw [← nodes]
  exact holds.forest

/-- The accepted texts are those whose tokens the grammar derives within the limits, and the tree is
the expression derived. Passing a limit is an error of its own. -/
theorem parse_exact (text : List Char) :
    (∀ e, (∃ t, parse text = .ok t ∧ t.rootExpr = e) ↔
      ∃ n, Derives (.rule .expression) (tokens text).dropLast e n ∧
        n ≤ maxNesting ∧ e.height ≤ maxHeight) ∧
    ∀ e n, Derives (.rule .expression) (tokens text).dropLast e n →
      maxNesting < n ∨ maxHeight < e.height →
      ∃ err, parse text = .error err ∧ err.code = .nestedTooDeeply := by
  refine ⟨fun e => ⟨?_, ?_⟩, fun e n hd hlt => ?_⟩
  · intro h
    obtain ⟨t, ht, rfl⟩ := h
    obtain ⟨n, hn, hh, hd, -⟩ := derives_of_parse ht
    exact ⟨n, hd, hn, hh⟩
  · intro h
    obtain ⟨n, hd, hn, hh⟩ := h
    rcases parse_of_derives hd with ⟨-, -, root, s, hs, holds⟩ | ⟨hlt, -⟩
    · exact ⟨_, hs, holds.rootExpr⟩
    · omega
  · rcases parse_of_derives hd with ⟨hn, hh, -⟩ | ⟨-, herr⟩
    · omega
    · exact herr

end InventoryQuery
