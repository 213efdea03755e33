import InventoryQuery.Json.Fault
import InventoryQuery.Text.Search

/-! Numbers are never wanted in a catalog, but they are read to the end before they are refused. A
number counts as malformed if it is larger than any double; as in most readers, digits beyond 64
bits of precision only count by their number. -/

namespace InventoryQuery.Json

def isDigit (b : UInt8) : Bool := ascii '0' ≤ b && b ≤ ascii '9'

def isNonzeroDigit (b : UInt8) : Bool := ascii '1' ≤ b && b ≤ ascii '9'

def isExponentSign (b : UInt8) : Bool := b = ascii 'e' || b = ascii 'E'

def digits : Reader (List Nat) := fun bs =>
  .ok ((bs.takeWhile isDigit).map fun b => b.toNat - (ascii '0').toNat) (bs.dropWhile isDigit)

/-- Nearest number with 53 significant bits, to the even one if two are equally near. -/
def roundTo53 (n : Nat) : Nat :=
  let spare := n.log2 + 1 - 53
  let unit := Nat.pow 2 spare
  let q := n / unit
  let twice := 2 * (n % unit)
  if unit < twice || (twice = unit && q % 2 = 1) then (q + 1) * unit else q * unit

/-- The product of the two nearest doubles rounds to infinity. -/
def exceedsDouble (significand : Nat) (exponent : Int) : Bool :=
  significand ≠ 0 &&
    (308 < exponent ||
      (0 ≤ exponent && Nat.pow 2 1024 - Nat.pow 2 970 ≤ roundTo53 significand * roundTo53 (Nat.pow 10 exponent.toNat)))

/-- Takes digits into the significand as long as it stays below 64 bits, and says how many were
taken and how many left. -/
def absorb (significand : Nat) : List Nat → Nat × Nat × Nat
  | [] => (significand, 0, 0)
  | d :: ds =>
    let next := significand * 10 + d
    if next < wordLimit then
      let (s, taken, left) := absorb next ds
      (s, taken + 1, left)
    else (significand, 0, ds.length + 1)

def exponent : Reader Int := do
  let negative ← accept (ascii '-')
  unless negative do
    let _ ← accept (ascii '+')
  match ← peekByte with
  | none => throw .truncated
  | some b =>
    if isDigit b then
      let n : Nat := (← digits).foldl (fun n d => 10 * n + d) 0
      pure (if negative then -(n : Int) else n)
    else throw .malformed

def fraction : Reader (List Nat) := do
  match ← peekByte with
  | none => throw .truncated
  | some b => if isDigit b then digits else throw .malformed

def integer : Reader (List Nat) := do
  match ← peekByte with
  | none => throw .truncated
  | some b =>
    if b = ascii '0' then
      advance
      match ← peekByte with
      | some next => if isDigit next then throw .malformed else pure []
      | none => pure []
    else if isNonzeroDigit b then digits
    else throw .malformed

def unsignedNumber : Reader Unit := do
  let (significand, _, left) := absorb 0 (← integer)
  let (significand, scale) ← (do
    if ← accept (ascii '.') then
      let (s, taken, _) := absorb significand (← fraction)
      pure (s, (left : Int) - taken)
    else pure (significand, (left : Int)) : Reader (Nat × Int))
  let power ← (do
    match ← peekByte with
    | some b => if isExponentSign b then do advance; exponent else pure 0
    | none => pure 0 : Reader Int)
  if exceedsDouble significand (scale + power) then throw .malformed

/-- In a value that nobody looks at, a number that ends too early is malformed, and its size does
not matter. -/
def skippedExponent : Reader Unit := do
  unless ← accept (ascii '+') do
    let _ ← accept (ascii '-')
  match ← peekByte with
  | some b => if isDigit b then let _ ← digits else throw .malformed
  | none => throw .malformed

def skippedNumber : Reader Unit := do
  match ← peekByte with
  | some b =>
    if b = ascii '0' then
      advance
      if let some next ← peekByte then
        if isDigit next then throw .malformed
    else if isNonzeroDigit b then
      let _ ← digits
    else throw .malformed
  | none => throw .malformed
  if ← accept (ascii '.') then
    match ← peekByte with
    | some b => if isDigit b then let _ ← digits else throw .malformed
    | none => throw .malformed
  match ← peekByte with
  | some b => if isExponentSign b then do advance; skippedExponent
  | none => pure ()

end InventoryQuery.Json
