import InventoryQuery.Json.Number
import InventoryQuery.Json.Text

/-! Objects, arrays and values that are skipped. The readers of wanted values take what a value of
the right shape contains; for any other value `otherShape` finds out whether it is a value at
all. -/

namespace InventoryQuery.Json

/-- A step that does not decline reads a byte. -/
def repeated {α : Type} (step : α → Reader (Option α)) : α → Reader α := untilDeclined List.length step

/-- After an element: another one follows, or the array ends. -/
def moreElements : Reader Bool := do
  match ← peekToken with
  | none => throw .truncated
  | some b =>
    if b = ascii ']' then pure false
    else if b = ascii ',' then
      advance
      match ← peekToken with
      | none => throw .truncated
      | some next => if next = ascii ']' then throw .malformed else pure true
    else throw .malformed

/-- At the start of an array: it has a first element, or it ends. -/
def anyElements : Reader Bool := do
  match ← peekToken with
  | none => throw .truncated
  | some b => pure (b ≠ ascii ']')

/-- After a member: another one follows and its key has been opened, or the object ends. -/
def moreMembers : Reader Bool := do
  match ← peekToken with
  | none => throw .truncated
  | some b =>
    if b = ascii '\x7d' then pure false
    else if b = ascii ',' then
      advance
      match ← peekToken with
      | none => throw .truncated
      | some next => if next = quote then do advance; pure true else throw .malformed
    else throw .malformed

/-- At the start of an object: it has a first member of which the key has been opened, or it
ends. -/
def anyMembers : Reader Bool := do
  match ← peekToken with
  | none => throw .truncated
  | some b =>
    if b = ascii '\x7d' then pure false
    else if b = quote then do advance; pure true
    else throw .malformed

def skipWithin : (depth : Nat) → Reader Unit
  | 0 => throw .truncated
  | depth + 1 => do
    match ← peekToken with
    | none => throw .truncated
    | some b =>
      if b = ascii 'n' then expectWord "null"
      else if b = ascii 't' then expectWord "true"
      else if b = ascii 'f' then expectWord "false"
      else if b = ascii '-' then do advance; skippedNumber
      else if isDigit b then skippedNumber
      else if b = quote then do advance; skippedStringRest
      else if b = ascii '[' then
        advance
        if ← anyElements then
          skipWithin depth
          repeated (fun _ => do
            if ← moreElements then do skipWithin depth; pure (some ())
            else pure none) ()
        advance
      else if b = ascii '\x7b' then
        advance
        if ← anyMembers then
          skipMember depth
          repeated (fun _ => do
            if ← moreMembers then do skipMember depth; pure (some ())
            else pure none) ()
        advance
      else throw .malformed
where
  skipMember (depth : Nat) : Reader Unit := do
    skippedStringRest
    expect (ascii ':')
    skipWithin depth

/-- A value cannot be deeper than it is long. -/
def skipValue : Reader Unit := fun bs => skipWithin (bs.length + 1) bs

/-- The next value is not of the shape that is wanted. Numbers, strings and words have to be
complete for that to be the fault. -/
def otherShape {α : Type} : Reader α := do
  match ← peekToken with
  | none => throw .truncated
  | some b =>
    if b = ascii 'n' then expectWord "null"
    else if b = ascii 't' then expectWord "true"
    else if b = ascii 'f' then expectWord "false"
    else if b = ascii '-' then do advance; unsignedNumber
    else if isDigit b then unsignedNumber
    else if b = quote then do
      advance
      let _ ← stringRest
    else if b = ascii '[' || b = ascii '\x7b' then pure ()
    else throw .malformed
    throw .wrongShape

def string : Reader String := do
  if (← peekToken) = some quote then do advance; stringRest else otherShape

def nullable {α : Type} (value : Reader α) : Reader (Option α) := do
  if (← peekToken) = some (ascii 'n') then do expectWord "null"; pure none
  else some <$> value

def array {α : Type} (element : Reader α) : Reader (List α) := do
  if (← peekToken) = some (ascii '[') then
    advance
    let items ← (do
      if ← anyElements then
        let first ← element
        repeated (fun items => do
          if ← moreElements then do
            let next ← element
            pure (some (items ++ [next]))
          else pure none) [first]
      else pure [] : Reader (List α))
    advance
    pure items
  else otherShape

/-- An object, its members one after the other from the left. `member` starts after the key. -/
def members {α : Type} (member : String → α → Reader α) (start : α) : Reader α := do
  let one (a : α) : Reader α := do member (← stringRest) a
  let all ← (do
    if ← anyMembers then
      repeated (fun a => do
        if ← moreMembers then do
          let b ← one a
          pure (some b)
        else pure none) (← one start)
    else pure start : Reader α)
  advance
  pure all

structure RecordField (ρ : Type) where
  name : String
  read : ρ → Reader ρ

/-- Fields by name. A known field may come once, unknown ones are skipped. The names seen come out
too. -/
def namedFields {ρ : Type} (fields : List (RecordField ρ)) (start : ρ) : Reader (ρ × List String) :=
  members (fun key (r, seen) => do
    match fields.find? (·.name = key) with
    | some field =>
      if seen.contains key then throw .wrongShape
      expect (ascii ':')
      let r ← field.read r
      pure (r, key :: seen)
    | none =>
      expect (ascii ':')
      skipValue
      pure (r, seen)) (start, [])

/-- Fields by position, from the first on, until the array ends. -/
def positionalFields {ρ : Type} (more : Reader Bool) : List (RecordField ρ) → ρ × List String → Reader (ρ × List String)
  | [], r => pure r
  | field :: fields, (r, seen) => do
    if ← more then
      let r ← field.read r
      positionalFields moreElements fields (r, field.name :: seen)
    else pure (r, seen)

/-- An object, or an array with the fields in order. A field that is missing keeps its value in
`start`, unless it is required. -/
def record {ρ : Type} (fields : List (RecordField ρ)) (required : List String) (start : ρ) : Reader ρ := do
  let complete (r : ρ × List String) : Reader ρ :=
    if required.all r.2.contains then pure r.1 else throw .wrongShape
  let opening ← peekToken
  if opening = some (ascii '\x7b') then
    advance
    complete (← namedFields fields start)
  else if opening = some (ascii '[') then
    advance
    let r ← complete (← positionalFields anyElements fields (start, []))
    expect (ascii ']')
    pure r
  else otherShape

def document {α : Type} (value : Reader α) (bytes : List UInt8) : Except Fault α :=
  match value bytes with
  | .error fault _ => .error fault
  | .ok a rest => if (rest.dropWhile isBlank).isEmpty then .ok a else .error .malformed

end InventoryQuery.Json
