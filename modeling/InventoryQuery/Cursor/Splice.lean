import InventoryQuery.Text.Span

/-! Putting a marker where the cursor is. The word under the cursor is cut out: the text before the
cursor goes back to the last boundary, the text after it starts at the next one. -/

namespace InventoryQuery.Cursor

def marker : Char := '?'

/-- Cuts the text at a byte offset. An offset inside a character goes back to its start, one beyond
the text to its end. -/
def splitAtByte : (offset : Nat) → List Char → List Char × List Char
  | _, [] => ([], [])
  | offset, c :: cs =>
    if c.utf8Size ≤ offset then
      let (before, after) := splitAtByte (offset - c.utf8Size) cs
      (c :: before, after)
    else ([], c :: cs)

theorem splitAtByte_append (offset : Nat) (cs : List Char) : (splitAtByte offset cs).1 ++ (splitAtByte offset cs).2 = cs := by
  induction cs generalizing offset with
  | nil => rfl
  | cons c cs ih => simp only [splitAtByte]; split <;> simp [ih]

def upToLastBoundary (boundaries : List Char) (text : List Char) : List Char :=
  (text.reverse.dropWhile fun c => !boundaries.contains c).reverse

def fromNextBoundary (boundaries : List Char) (text : List Char) : List Char :=
  text.dropWhile fun c => !boundaries.contains c

def countMarkers : (inString : Bool) → List Char → Nat
  | _, [] => 0
  | inString, c :: cs =>
    if c = '"' then countMarkers (!inString) cs
    else (if c = marker && !inString then 1 else 0) + countMarkers inString cs

structure Spliced where
  candidate : List Char
  /-- How many markers come before the one that was put in. -/
  ordinal : Nat
  deriving Repr, DecidableEq

def splice (text : List Char) (offset : Nat) (boundaries : List Char) : Spliced :=
  let (before, after) := splitAtByte offset text
  let before := upToLastBoundary boundaries before
  ⟨before ++ marker :: fromNextBoundary boundaries after, countMarkers false before⟩

end InventoryQuery.Cursor
