import InventoryQuery.Catalog.Facts

/-! Versions are compared number by number. A number is what a segment starts with, and a missing
one is zero. A filter asks for a version and a platform; a fact is admitted by one entry that has
both. -/

namespace InventoryQuery

/-- Numbers of 64 bits; a segment that does not start with one counts as zero. -/
def segmentValue (segment : List Char) : Nat :=
  let n := decimalValue ((trim segment).takeWhile Char.isDigit)
  if n < wordLimit then n else 0

def segments (version : String) : List Nat := (piecesAt '.' version.toList).map segmentValue

def compareSegments : List Nat → List Nat → Ordering
  | [], [] => .eq
  | [], b :: bs => (compare 0 b).then (compareSegments [] bs)
  | a :: as, [] => (compare a 0).then (compareSegments as [])
  | a :: as, b :: bs => (compare a b).then (compareSegments as bs)

def compareVersions (a b : String) : Ordering := compareSegments (segments a) (segments b)

/-- What is left open matches everything. -/
structure Filter where
  version : Option String
  platform : Option String
  deriving Repr, DecidableEq, Inhabited

namespace Filter

def everything : Filter := ⟨none, none⟩

def isUnfiltered (f : Filter) : Bool := f.version.isNone && f.platform.isNone

def admitsEntry (f : Filter) (version : String) (platforms : List String) : Bool :=
  f.version.all (fun wanted => (compareVersions wanted version) != .lt) && f.platform.all fun wanted => platforms.contains wanted

/-- Without a filter even a fact that is available nowhere is admitted. -/
def admits (f : Filter) (a : Availability) : Bool := f.isUnfiltered || a.entries.any fun e => f.admitsEntry e.1 e.2

end Filter

end InventoryQuery
