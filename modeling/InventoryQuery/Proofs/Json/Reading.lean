import InventoryQuery.Json.Structure
import InventoryQuery.Proofs.Repetition

/-! One run of a reader, as a relation between the bytes before and after it. A run of a compound
reader is put together from the runs of its parts. A loop has no reason to stop in time for every
step that one can think of, so its bound is compared with the bytes that this run uses up. -/

namespace InventoryQuery.Json

variable {α β : Type}

def Reads (r : Reader α) (s : List UInt8) (a : α) (t : List UInt8) : Prop := r s = .ok a t

namespace Reads

variable {r : Reader α} {s t u : List UInt8} {a : α} {b : β}

theorem pure (a : α) (s : List UInt8) : Reads (Pure.pure a) s a s := rfl

theorem bind {k : α → Reader β} (hr : Reads r s a t) (hk : Reads (k a) t b u) : Reads (r >>= k) s b u := by
  change EStateM.bind r k s = .ok b u
  unfold EStateM.bind
  rw [hr]
  exact hk

theorem map (f : α → β) (hr : Reads r s a t) : Reads (f <$> r) s (f a) t := by
  change EStateM.map f r s = .ok (f a) t
  unfold EStateM.map
  rw [hr]

end Reads

section bytes

variable {b : UInt8} {s : List UInt8}

theorem reads_peekToken (hb : isBlank b = false) (s : List UInt8) : Reads peekToken (b :: s) (some b) (b :: s) := by
  unfold Reads peekToken
  rw [List.dropWhile_cons_of_neg (by rw [hb]; decide)]
  rfl

theorem reads_advance (b : UInt8) (s : List UInt8) : Reads advance (b :: s) () s := rfl

theorem reads_expect (hb : isBlank b = false) (s : List UInt8) : Reads (expect b) (b :: s) () s := by
  refine (reads_peekToken hb s).bind ?_
  dsimp only
  rw [if_pos rfl]
  exact reads_advance b s

end bytes

section loops

variable {step : α → Reader (Option α)} {s t u : List UInt8} {a b c : α}

/-- The repetition gets from `a` to `c`, whatever bound it is given, if that exceeds the bytes. -/
def Repeats (step : α → Reader (Option α)) (a : α) (s : List UInt8) (c : α) (u : List UInt8) : Prop :=
  ∀ n, s.length < n → iterate step n a s = .ok c u

theorem Repeats.done (h : Reads (step a) s none t) : Repeats step a s a t := by
  intro n hn
  obtain ⟨n, rfl⟩ : ∃ m, n = m + 1 := ⟨n - 1, by omega⟩
  rw [iterate_succ, h]

theorem Repeats.next (h : Reads (step a) s (some b) t) (shorter : t.length < s.length) (rest : Repeats step b t c u) :
    Repeats step a s c u := by
  intro n hn
  obtain ⟨n, rfl⟩ : ∃ m, n = m + 1 := ⟨n - 1, by omega⟩
  rw [iterate_succ, h]
  exact rest n (by omega)

theorem Repeats.reads (h : Repeats step a s c u) : Reads (repeated step a) s c u := h _ (Nat.lt_succ_self _)

end loops

end InventoryQuery.Json
