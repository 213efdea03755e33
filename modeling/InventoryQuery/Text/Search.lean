/-! Finding a separator in a text and cutting the text along it. -/

namespace InventoryQuery

/-- The text before the first occurrence of `sep`, all of it when there is none. -/
def upTo (sep : List Char) : List Char → List Char
  | [] => []
  | c :: cs => if sep.isPrefixOf (c :: cs) then [] else c :: upTo sep cs

/-- The pieces between the occurrences of `sep`; there is always at least one. -/
def piecesAt (sep : Char) : List Char → List (List Char)
  | [] => [[]]
  | c :: cs =>
    if c = sep then [] :: piecesAt sep cs
    else match piecesAt sep cs with
      | [] => [[c]]
      | p :: ps => (c :: p) :: ps

theorem piecesAt_ne_nil (sep : Char) (cs : List Char) : piecesAt sep cs ≠ [] := by
  cases cs with
  | nil => simp [piecesAt]
  | cons c cs => simp only [piecesAt]; split <;> (try split) <;> simp

def decimalValue (digits : List Char) : Nat := digits.foldl (fun n d => 10 * n + (d.toNat - '0'.toNat)) 0

/-- Numbers of 64 bits are below this one. -/
def wordLimit : Nat := 18446744073709551616

end InventoryQuery
