import InventoryQuery.Repetition

/-! Reading a document byte by byte. The first fault from left to right is the one that counts: the
text ends too early, it is no JSON, or it is JSON of another shape than the one asked for. -/

namespace InventoryQuery.Json

inductive Fault where
  | truncated
  | malformed
  | wrongShape
  deriving Repr, DecidableEq, Inhabited

abbrev Reader := EStateM Fault (List UInt8)

def ascii (c : Char) : UInt8 := c.toUInt8

def isBlank (b : UInt8) : Bool := b = ascii ' ' || b = ascii '\n' || b = ascii '\t' || b = ascii '\r'

def peekByte : Reader (Option UInt8) := fun bs => .ok bs.head? bs

def peekToken : Reader (Option UInt8) := fun bs => let bs := bs.dropWhile isBlank; .ok bs.head? bs

def advance : Reader Unit := fun bs => .ok () bs.tail

def accept (b : UInt8) : Reader Bool := fun bs => if bs.head? = some b then .ok true bs.tail else .ok false bs

def expect (b : UInt8) : Reader Unit := do
  match ← peekToken with
  | none => throw .truncated
  | some next => if next = b then advance else throw .malformed

/-- The rest of a word of which the start has been seen. -/
def expectAll : List UInt8 → Reader Unit
  | [] => pure ()
  | b :: bs => do
    match ← peekByte with
    | none => throw .truncated
    | some next => if next = b then do advance; expectAll bs else throw .malformed

def expectWord (word : String) : Reader Unit := expectAll (word.toList.map ascii)

end InventoryQuery.Json
