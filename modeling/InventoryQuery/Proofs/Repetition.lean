import InventoryQuery.Repetition

/-! A step that never goes on without using up input is repeated until it declines: the bound on the
number of steps is not reached, and any larger bound gives the same result. -/

namespace InventoryQuery

variable {ε σ α : Type} {size : σ → Nat} {step : α → EStateM ε σ (Option α)}

/-- A step that does not decline uses up input. -/
def Progresses (size : σ → Nat) (step : α → EStateM ε σ (Option α)) : Prop :=
  ∀ a s b t, step a s = .ok (some b) t → size t < size s

theorem iterate_succ (n : Nat) (a : α) (s : σ) :
    iterate step (n + 1) a s =
      match step a s with
      | .ok none t => .ok a t
      | .ok (some b) t => iterate step n b t
      | .error e t => .error e t := by
  rw [iterate]
  change EStateM.bind _ _ s = _
  unfold EStateM.bind
  cases h : step a s with
  | ok o t => cases o <;> rfl
  | error e t => rfl

theorem iterate_stable (hp : Progresses size step) {n m : Nat} {a : α} {s : σ} (hn : size s < n)
    (hm : size s < m) : iterate step n a s = iterate step m a s := by
  induction n generalizing m a s with
  | zero => omega
  | succ n ih =>
    cases m with
    | zero => omega
    | succ m =>
      rw [iterate_succ, iterate_succ]
      cases h : step a s with
      | error e t => rfl
      | ok o t =>
        cases o with
        | none => rfl
        | some b =>
          have := hp a s b t h
          exact ih (by omega) (by omega)

/-- The bound is gone: a repetition is its first step and then the repetition again. -/
theorem untilDeclined_eq (hp : Progresses size step) (a : α) (s : σ) :
    untilDeclined size step a s =
      match step a s with
      | .ok none t => .ok a t
      | .ok (some b) t => untilDeclined size step b t
      | .error e t => .error e t := by
  unfold untilDeclined
  rw [iterate_succ]
  cases h : step a s with
  | error e t => rfl
  | ok o t =>
    cases o with
    | none => rfl
    | some b =>
      have := hp a s b t h
      exact iterate_stable hp this (Nat.lt_succ_self _)

end InventoryQuery
