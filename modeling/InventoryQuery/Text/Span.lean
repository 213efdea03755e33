/-! Positions in a text are counted in UTF-8 bytes. A span is a pair of such positions, the end
excluded. -/

namespace InventoryQuery

def byteSize : List Char → Nat
  | [] => 0
  | c :: cs => c.utf8Size + byteSize cs

@[simp] theorem byteSize_nil : byteSize [] = 0 := rfl

@[simp] theorem byteSize_cons (c : Char) (cs : List Char) : byteSize (c :: cs) = c.utf8Size + byteSize cs := rfl

@[simp] theorem byteSize_append (as bs : List Char) : byteSize (as ++ bs) = byteSize as + byteSize bs := by
  induction as with
  | nil => simp
  | cons a as ih => rw [List.cons_append, byteSize_cons, ih, byteSize_cons, Nat.add_assoc]

/-- Offsets are stored in 32 bits, so larger ones stop at the largest that fits. -/
def storedOffset (offset : Nat) : Nat := min offset 4294967295

structure Span where
  start : Nat
  stop : Nat
  deriving Repr, DecidableEq, Inhabited

def Span.empty (offset : Nat) : Span := ⟨offset, offset⟩

end InventoryQuery
