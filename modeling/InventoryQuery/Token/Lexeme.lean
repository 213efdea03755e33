import InventoryQuery.Keyword.Phrase
import InventoryQuery.Text.Span

/-! Cutting a text into tokens, each as long as it can be. What no token can start with becomes an
invalid token of one character; a quote that is never closed takes the rest of the text. -/

namespace InventoryQuery

structure Token where
  kind : Kind
  text : List Char
  start : Nat
  deriving Repr, DecidableEq, Inhabited

def Token.span (t : Token) : Span := ⟨t.start, t.start + byteSize t.text⟩

namespace Lexeme

/-- The blanks between tokens. -/
def isSpace (c : Char) : Bool := c = ' ' || c = '\t' || c = '\r' || c = '\n' || c = '\x0c'

def isLetter (c : Char) : Bool := ('a' ≤ c && c ≤ 'z') || ('A' ≤ c && c ≤ 'Z')

def isDigit (c : Char) : Bool := '0' ≤ c && c ≤ '9'

def isWordPart (c : Char) : Bool := isLetter c || isDigit c || c = '_'

/-- What can stand behind the sentinel. -/
def reserved : List (String × Kind) :=
  ["there-do-not-exist", "there-does-not-exist", "there-exist-no", "there-exists-no", "exists-no", "exist-no"].map
    (⟨·, .notExistsWord⟩) ++
  ["there-exists", "there-exist", "exists", "exist"].map (⟨·, .existsWord⟩) ++
  ["does-not-end-with", "ends-with", "does-not-start-with", "starts-with", "is-not-contained-by", "is-contained-by",
   "does-not-contain", "is-not-greater-than-or-equal-to", "is-greater-than-or-equal-to", "is-not-less-than-or-equal-to",
   "is-less-than-or-equal-to", "is-not-less-than", "is-less-than", "is-not-greater-than", "is-greater-than", "is-equal-to",
   "is-not-equal-to", "is-not", "is", "does-not-equal", "equals", "contains"].map (⟨·, .relation⟩) ++
  [("not", .notWord), ("its", .itsWord), ("it", .itWord), ("whose", .whoseWord), ("as", .asWord), ("of", .ofWord),
   ("and", .andWord), ("or", .orWord), ("mod", .modWord), ("if", .ifWord), ("then", .thenWord), ("else", .elseWord)]

def punctuation : List (String × Kind) :=
  [("!=", .relation), (">=", .relation), ("<=", .relation), (">", .relation), ("<", .relation), ("=", .relation),
   ("->", .arrow), ("'s", .arrow), ("'", .arrow), (".", .arrow), ("+", .plus), ("-", .minus), ("*", .star), ("/", .slash),
   ("&", .ampersand), ("(", .leftParen), (")", .rightParen), (";", .semicolon), (",", .comma), ("?", .question)]

def spellings : List (List Char × Kind) :=
  reserved.map (fun p => (sentinel :: p.1.toList, p.2)) ++ punctuation.map fun p => (p.1.toList, p.2)

/-- `s` is taken if the text starts with it and the best spelling so far is shorter. -/
def longerSpelling (cs : List Char) (best : Option (Kind × Nat)) (s : List Char × Kind) : Option (Kind × Nat) :=
  if s.1.isPrefixOf cs && best.all (·.2 < s.1.length) then some (s.2, s.1.length) else best

def longestSpelling? (cs : List Char) : Option (Kind × Nat) := spellings.foldl (longerSpelling cs) none

theorem foldl_longerSpelling_le (cs : List Char) (table : List (List Char × Kind)) (best : Option (Kind × Nat))
    (h : ∀ b ∈ best, b.2 ≤ cs.length) : ∀ b ∈ table.foldl (longerSpelling cs) best, b.2 ≤ cs.length := by
  induction table generalizing best with
  | nil => exact h
  | cons s table ih =>
    refine ih _ fun b hb => ?_
    unfold longerSpelling at hb
    split at hb
    · rename_i hs
      rw [Bool.and_eq_true] at hs
      cases Option.some.inj hb
      exact (List.isPrefixOf_iff_prefix.1 hs.1).length_le
    · exact h b hb

theorem longestSpelling?_le {cs : List Char} {k : Kind} {n : Nat} (h : longestSpelling? cs = some (k, n)) : n ≤ cs.length :=
  foldl_longerSpelling_le cs spellings none (by simp) (k, n) h

/-- The kind of the token that starts with `c`, and how many of the characters after `c` belong to
it. -/
def next (c : Char) (cs : List Char) : Kind × Nat :=
  if isSpace c then (.blank, (cs.takeWhile isSpace).length)
  else if isLetter c then (.word, (cs.takeWhile isWordPart).length)
  else if isDigit c then (.numeral, (cs.takeWhile isDigit).length)
  else if c = '"' then
    let body := cs.takeWhile (· ≠ '"')
    if body.length < cs.length then (.string, body.length + 1) else (.invalid, cs.length)
  else
    match longestSpelling? (c :: cs) with
    | some (kind, n) => (kind, n - 1)
    | none => (.invalid, 0)

theorem next_le (c : Char) (cs : List Char) : (next c cs).2 ≤ cs.length := by
  have take_le (p : Char → Bool) : (cs.takeWhile p).length ≤ cs.length := (List.takeWhile_prefix p).length_le
  unfold next
  split
  · exact take_le _
  split
  · exact take_le _
  split
  · exact take_le _
  split
  · dsimp only
    split
    · assumption
    · exact Nat.le_refl _
  split
  · rename_i h
    have := longestSpelling?_le h
    rw [List.length_cons] at this
    exact Nat.sub_le_of_le_add this
  · exact Nat.zero_le _

/-- The tokens of a text that starts at byte `offset`; the first `skip` characters belong to a token
that is already out. -/
def allFrom : (offset skip : Nat) → List Char → List Token
  | _, _, [] => []
  | offset, skip + 1, c :: cs => allFrom (offset + c.utf8Size) skip cs
  | offset, 0, c :: cs =>
    let (kind, n) := next c cs
    ⟨kind, c :: cs.take n, offset⟩ :: allFrom (offset + c.utf8Size) n cs

theorem allFrom_append (offset : Nat) (w rest : List Char) :
    allFrom offset w.length (w ++ rest) = allFrom (offset + byteSize w) 0 rest := by
  induction w generalizing offset with
  | nil => rfl
  | cons c w ih =>
    rw [List.length_cons, List.cons_append, allFrom, ih, byteSize_cons, Nat.add_assoc]

end Lexeme

/-- All tokens, blanks and single words included. -/
def lexemes (text : List Char) : List Token := Lexeme.allFrom 0 0 text

end InventoryQuery
