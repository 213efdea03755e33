import InventoryQuery.Json.Fault

/-! Strings of a document. A backslash starts an escape, two escaped surrogates make one character,
and control characters must be escaped. What comes out has to be valid UTF-8, unless nobody looks at
it. -/

namespace InventoryQuery.Json

def quote : UInt8 := ascii '"'

def backslash : UInt8 := ascii '\\'

def isControl (b : UInt8) : Bool := b < 0x20

def simpleEscape? (b : UInt8) : Option UInt8 :=
  if b = quote || b = backslash || b = ascii '/' then some b
  else if b = ascii 'b' then some 0x08
  else if b = ascii 'f' then some 0x0c
  else if b = ascii 'n' then some 0x0a
  else if b = ascii 'r' then some 0x0d
  else if b = ascii 't' then some 0x09
  else none

def hexValue? (b : UInt8) : Option Nat :=
  if ascii '0' ≤ b && b ≤ ascii '9' then some (b.toNat - (ascii '0').toNat)
  else if ascii 'a' ≤ b && b ≤ ascii 'f' then some (b.toNat - (ascii 'a').toNat + 10)
  else if ascii 'A' ≤ b && b ≤ ascii 'F' then some (b.toNat - (ascii 'A').toNat + 10)
  else none

def unit? (a b c d : UInt8) : Option Nat := do
  let a ← hexValue? a
  let b ← hexValue? b
  let c ← hexValue? c
  let d ← hexValue? d
  pure (((a * 16 + b) * 16 + c) * 16 + d)

def isLeading (n : Nat) : Bool := 0xd800 ≤ n && n ≤ 0xdbff

def isTrailing (n : Nat) : Bool := 0xdc00 ≤ n && n ≤ 0xdfff

def paired (leading trailing : Nat) : Nat := (leading - 0xd800) * 0x400 + (trailing - 0xdc00) + 0x10000

def encoded (n : Nat) : List UInt8 := String.utf8EncodeChar (Char.ofNat n)

/-- The bytes of a string up to its closing quote, escapes resolved, and what follows the quote. -/
def stringBytes : List UInt8 → Except Fault (List UInt8 × List UInt8)
  | [] => .error .truncated
  | b :: bs =>
    if b = quote then .ok ([], bs)
    else if b = backslash then
      match bs with
      | [] => .error .truncated
      | e :: bs =>
        if e = ascii 'u' then
          match bs with
          | w :: x :: y :: z :: bs =>
            match unit? w x y z with
            | none => .error .malformed
            | some n =>
              if isTrailing n then .error .malformed
              else if isLeading n then
                match bs with
                | [] => .error .truncated
                | e :: bs =>
                  if e = backslash then
                    match bs with
                    | [] => .error .truncated
                    | e :: bs =>
                      if e = ascii 'u' then
                        match bs with
                        | w :: x :: y :: z :: bs =>
                          match unit? w x y z with
                          | none => .error .malformed
                          | some m =>
                            if isTrailing m then (stringBytes bs).map fun r => (encoded (paired n m) ++ r.1, r.2)
                            else .error .malformed
                        | _ => .error .truncated
                      else .error .malformed
                  else .error .malformed
              else (stringBytes bs).map fun r => (encoded n ++ r.1, r.2)
          | _ => .error .truncated
        else
          match simpleEscape? e with
          | some c => (stringBytes bs).map fun r => (c :: r.1, r.2)
          | none => .error .malformed
    else if isControl b then .error .malformed
    else (stringBytes bs).map fun r => (b :: r.1, r.2)

def stringRest : Reader String := fun bs =>
  match stringBytes bs with
  | .error fault => .error fault bs
  | .ok (content, rest) =>
    match String.fromUTF8? ⟨content.toArray⟩ with
    | some s => .ok s rest
    | none => .error .malformed rest

def afterString : List UInt8 → Except Fault (List UInt8)
  | [] => .error .truncated
  | b :: bs =>
    if b = quote then .ok bs
    else if b = backslash then
      match bs with
      | [] => .error .truncated
      | e :: bs =>
        if e = ascii 'u' then
          match bs with
          | w :: x :: y :: z :: bs => if (unit? w x y z).isSome then afterString bs else .error .malformed
          | _ => .error .truncated
        else if (simpleEscape? e).isSome then afterString bs
        else .error .malformed
    else if isControl b then .error .malformed
    else afterString bs

def skippedStringRest : Reader Unit := fun bs =>
  match afterString bs with
  | .error fault => .error fault bs
  | .ok rest => .ok () rest

def fourHexDigits (n : Nat) : List Char := let ds := Nat.toDigits 16 n; List.replicate (4 - ds.length) '0' ++ ds

def writtenChar (c : Char) : List Char :=
  if c = '"' then ['\\', '"']
  else if c = '\\' then ['\\', '\\']
  else if c = '\x08' then ['\\', 'b']
  else if c = '\x0c' then ['\\', 'f']
  else if c = '\n' then ['\\', 'n']
  else if c = '\r' then ['\\', 'r']
  else if c = '\t' then ['\\', 't']
  else if c < ' ' then ['\\', 'u'] ++ fourHexDigits c.toNat
  else [c]

def writeString (s : String) : String := String.ofList ('"' :: s.toList.flatMap writtenChar ++ ['"'])

end InventoryQuery.Json
