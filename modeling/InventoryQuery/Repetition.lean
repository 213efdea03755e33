/-! Repeating a step that reads input until it declines. Each step that does not decline has to use
up some of the input, so the size of the input bounds the number of steps; one more step finds out
that there is nothing left. -/

namespace InventoryQuery

variable {ε σ α : Type}

/-- Takes at most `n` steps. -/
def iterate (step : α → EStateM ε σ (Option α)) : (n : Nat) → α → EStateM ε σ α
  | 0, a => pure a
  | n + 1, a => do
    match ← step a with
    | none => pure a
    | some b => iterate step n b

def untilDeclined (size : σ → Nat) (step : α → EStateM ε σ (Option α)) (a : α) : EStateM ε σ α :=
  fun s => iterate step (size s + 1) a s

end InventoryQuery
