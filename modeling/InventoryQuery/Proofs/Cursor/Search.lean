import InventoryQuery.Cursor.Prediction
import InventoryQuery.Proofs.Grammar.Balance

/-! The search for a text that compiles. It closes one parenthesis after the other, and at most one
number of them can be right: an accepted text has its parentheses balanced, and outside a string
every one that is added counts. -/

namespace InventoryQuery

def closed (c : List Char) (k : Nat) : List Char := c ++ List.replicate k ')'

theorem closed_zero (c : List Char) : closed c 0 = c := List.append_nil c

theorem closed_succ (c : List Char) (k : Nat) : closed c (k + 1) = closed (c ++ [')']) k := by
  simp [closed, List.replicate_succ]

/-- The number of parentheses to be closed can be read off the text. -/
theorem balance_of_closed {c : List Char} {k : Nat} {t : Tree}
    (h : compile (closed c k) = .ok t) :
    (outside false c).count '(' = (outside false c).count ')' + k := by
  have plain : '"' ∉ List.replicate k ')' := fun hm => absurd (List.eq_of_mem_replicate hm) (by decide)
  have quotes := quotes_closed_of_compile h
  have balanced := balanced_of_compile h
  rw [closed, quoteOpen_append, quoteOpen_of_not_mem plain] at quotes
  rw [closed, outside_append, quotes, outside_of_not_mem plain, List.count_append,
    List.count_append, List.count_replicate_self] at balanced
  have unopened : (List.replicate k ')').count '(' = 0 :=
    List.count_eq_zero.2 fun hm => absurd (List.eq_of_mem_replicate hm) (by decide)
  rwa [unopened, Nat.add_zero] at balanced

theorem closed_unique {c : List Char} {k l : Nat} {t u : Tree} (hk : compile (closed c k) = .ok t)
    (hl : compile (closed c l) = .ok u) : k = l := by
  have := balance_of_closed hk
  have := balance_of_closed hl
  omega

namespace Cursor

/-- The search stops at the first text that compiles. -/
theorem tryCandidates_of_ok (ordinal : Nat) {left k : Nat} {c : List Char} {t : Tree}
    (hk : k < left) (before : ∀ j < k, ∃ e, compile (closed c j) = .error e)
    (found : compile (closed c k) = .ok t) (attempts : Nat) :
    tryCandidates ordinal left attempts c =
      ⟨closed c k, attempts + k + 1, some t, t.markers[ordinal]?⟩ := by
  induction k generalizing left c attempts with
  | zero =>
    obtain ⟨left, rfl⟩ := Nat.exists_eq_succ_of_ne_zero (Nat.ne_of_gt hk)
    rw [closed_zero] at found ⊢
    rw [tryCandidates, found]
  | succ k ih =>
    obtain ⟨left, rfl⟩ := Nat.exists_eq_succ_of_ne_zero (Nat.ne_of_gt (Nat.zero_lt_of_lt hk))
    obtain ⟨e, he⟩ := before 0 (Nat.succ_pos k)
    rw [closed_zero] at he
    rw [closed_succ] at found ⊢
    rw [tryCandidates, he]
    dsimp only
    rw [ih (Nat.lt_of_succ_lt_succ hk) (fun j hj => ?_) found, Nat.add_right_comm attempts 1 k]
    · rfl
    · rw [← closed_succ]
      exact before (j + 1) (Nat.succ_lt_succ hj)

theorem tryCandidates_of_error (ordinal : Nat) {left : Nat} {c : List Char}
    (all : ∀ j < left, ∃ e, compile (closed c j) = .error e) (attempts : Nat) :
    tryCandidates ordinal left attempts c = ⟨closed c left, attempts + left, none, none⟩ := by
  induction left generalizing c attempts with
  | zero =>
    rw [closed_zero]
    rfl
  | succ left ih =>
    obtain ⟨e, he⟩ := all 0 (Nat.succ_pos left)
    rw [closed_zero] at he
    rw [tryCandidates, he]
    dsimp only
    rw [ih fun j hj => ?_, closed_succ, Nat.add_right_comm]
    · rfl
    · rw [← closed_succ]
      exact all (j + 1) (Nat.succ_lt_succ hj)

/-- Whatever number of parentheses is right is the first that is tried with success. -/
theorem predict_of_ok {options : Options} {text : List Char} {offset k : Nat} {t : Tree}
    (hk : k < options.maxAttempts)
    (found : compile (closed (splice text offset options.boundaries).candidate k) = .ok t) :
    predict options text offset =
      ⟨closed (splice text offset options.boundaries).candidate k, k + 1, some t,
        t.markers[(splice text offset options.boundaries).ordinal]?⟩ := by
  have before : ∀ j < k,
      ∃ e, compile (closed (splice text offset options.boundaries).candidate j) = .error e := by
    intro j hj
    cases hc : compile (closed (splice text offset options.boundaries).candidate j) with
    | error e => exact ⟨e, rfl⟩
    | ok u => exact absurd (closed_unique hc found) (Nat.ne_of_lt hj)
  have search := tryCandidates_of_ok (splice text offset options.boundaries).ordinal hk before
    found 0
  rwa [Nat.zero_add] at search

theorem predict_of_error {options : Options} {text : List Char} {offset : Nat}
    (all : ∀ k < options.maxAttempts, ∀ t,
      compile (closed (splice text offset options.boundaries).candidate k) ≠ .ok t) :
    predict options text offset =
      ⟨closed (splice text offset options.boundaries).candidate options.maxAttempts,
        options.maxAttempts, none, none⟩ := by
  have errors : ∀ k < options.maxAttempts,
      ∃ e, compile (closed (splice text offset options.boundaries).candidate k) = .error e := by
    intro k hk
    cases hc : compile (closed (splice text offset options.boundaries).candidate k) with
    | error e => exact ⟨e, rfl⟩
    | ok t => exact absurd hc (all k hk t)
  have search := tryCandidates_of_error (splice text offset options.boundaries).ordinal errors 0
  rwa [Nat.zero_add] at search

/-- At most one number of closing parentheses makes a text compile. A prediction finds it if it is
among those that are tried, and otherwise it is empty. -/
theorem prediction_exact :
    (∀ (c : List Char) (k l : Nat) (t u : Tree),
      compile (closed c k) = .ok t → compile (closed c l) = .ok u → k = l) ∧
    ∀ (options : Options) (text : List Char) (offset : Nat),
      let c := (splice text offset options.boundaries).candidate
      let p := predict options text offset
      ((∃ t, p.tree = some t) ↔ ∃ k < options.maxAttempts, ∃ t, compile (closed c k) = .ok t) ∧
      (∀ k < options.maxAttempts, ∀ t, compile (closed c k) = .ok t →
        p.attempts = k + 1 ∧ p.candidate = closed c k ∧ p.tree = some t) ∧
      (p.tree = none → p.marker = none ∧ p.attempts = options.maxAttempts ∧
        p.candidate = closed c options.maxAttempts) := by
  refine ⟨fun c k l t u => closed_unique, fun options text offset => ?_⟩
  intro c p
  by_cases found : ∃ k < options.maxAttempts, ∃ t, compile (closed c k) = .ok t
  · obtain ⟨k, hk, t, ht⟩ := found
    have hp : p = _ := predict_of_ok hk ht
    refine ⟨⟨fun _ => ⟨k, hk, t, ht⟩, fun _ => ⟨t, by rw [hp]⟩⟩, fun l hl u hu => ?_, fun failed => ?_⟩
    · have same : p = _ := predict_of_ok hl hu
      rw [same]
      exact ⟨rfl, rfl, rfl⟩
    · rw [hp] at failed
      cases failed
  · have hp : p = _ := predict_of_error fun k hk t ht => found ⟨k, hk, t, ht⟩
    refine ⟨⟨fun succeeded => ?_, fun h => absurd h found⟩, fun k hk t ht => absurd ⟨k, hk, t, ht⟩ found,
      fun _ => ?_⟩
    · obtain ⟨t, ht⟩ := succeeded
      rw [hp] at ht
      cases ht
    · rw [hp]
      exact ⟨rfl, rfl, rfl⟩

theorem prediction_exact_one_open :
    let t : Tree := ⟨#[⟨.marker, ⟨1, 2⟩, none, false⟩, ⟨.parens 0, ⟨0, 3⟩, none, false⟩], 1⟩
    let p := predict .standard ['(', 'x'] 2
    (splice ['(', 'x'] 2 Options.standard.boundaries).candidate = ['(', '?'] ∧
      compile (closed ['(', '?'] 1) = .ok t ∧
      p.attempts = 2 ∧ p.candidate = closed ['(', '?'] 1 ∧ p.tree = some t := by
  intro t p
  have compiled : compile (closed ['(', '?'] 1) = .ok t := by decide +kernel
  exact ⟨rfl, compiled, (prediction_exact.2 .standard ['(', 'x'] 2).2.1 1 (by decide) t compiled⟩

end Cursor

end InventoryQuery
