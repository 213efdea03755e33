import InventoryQuery.Text.Unprintable
import InventoryQuery.Text.DefaultIgnorable
import InventoryQuery.Text.GraphemeExtend

/-! The quoted form of a text in listings: double quotes around it, escapes for quotes, backslashes
and whatever a reader could not see. Every other character stands for itself. -/

namespace InventoryQuery

/-- The escape by code point: a backslash, the letter u and the number in braces, in lower-case
hexadecimal without padding. -/
def codePointEscape (c : Char) : List Char := ['\\', 'u', '\x7b'] ++ Nat.toDigits 16 c.toNat ++ ['\x7d']

/-- The halfwidth voiced and semi-voiced sound marks of Katakana. They extend the character before
them and still fill a cell of their own. -/
def isHalfwidthSoundMark (c : Char) : Bool := c = '\uff9e' || c = '\uff9f'

/-- What a reader could not see or could not tell from the character before it. -/
def isHidden (c : Char) : Bool :=
  isUnprintable c || isDefaultIgnorable c || (extendsGrapheme c && !isHalfwidthSoundMark c)

def quotedChar (c : Char) : List Char :=
  if c = '\x00' then ['\\', '0']
  else if c = '\t' then ['\\', 't']
  else if c = '\r' then ['\\', 'r']
  else if c = '\n' then ['\\', 'n']
  else if c = '\\' then ['\\', '\\']
  else if c = '"' then ['\\', '"']
  else if ' ' ≤ c && c ≤ '~' then [c]
  else if isHidden c then codePointEscape c
  else [c]

def quoted (text : String) : String := String.ofList ('"' :: text.toList.flatMap quotedChar ++ ['"'])

end InventoryQuery
