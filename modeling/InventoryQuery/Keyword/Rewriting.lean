import InventoryQuery.Keyword.Phrase
import InventoryQuery.Text.Blank

/-! Rewriting a text so that every reserved phrase is one word. A phrase counts where it stands on
its own: between boundaries, with any run of blanks between its words, outside double quotes. Where
several phrases fit, the longest is taken. -/

namespace InventoryQuery

def isBoundary (c : Char) : Bool := isBlank c || c = '(' || c = ')'

/-- A phrase, word by word, and what is written in its place. -/
structure Rewrite where
  words : List (List Char)
  output : List Char
  deriving Repr, DecidableEq

namespace Rewrite

/-- How much of the text the words take at its start, provided that a boundary or the end of the
text follows them. -/
def reach? : List (List Char) → List Char → Option Nat
  | [], _ => some 0
  | [w], cs => do
    let rest ← w.isPrefixOf? cs
    if rest.head?.all isBoundary then some w.length else none
  | w :: ws, cs => do
    let rest ← w.isPrefixOf? cs
    let gap := (rest.takeWhile isBlank).length
    if gap = 0 then none
    else
      let n ← reach? ws (rest.drop gap)
      some (w.length + gap + n)

/-- `r` is taken if it fits and the best rewrite so far takes no more of the text. -/
def longer (cs : List Char) (best : Option (Rewrite × Nat)) (r : Rewrite) : Option (Rewrite × Nat) :=
  match reach? r.words cs with
  | none => best
  | some n => if best.all (·.2 ≤ n) then some (r, n) else best

def longest? (rules : List Rewrite) (cs : List Char) : Option (Rewrite × Nat) := rules.foldl (longer cs) none

/-- Characters of a phrase that has been rewritten are skipped; `fresh` says that the character
before was a boundary. -/
def applyFrom (rules : List Rewrite) : (skip : Nat) → (inString fresh : Bool) → List Char → List Char
  | _, _, _, [] => []
  | skip + 1, inString, _, c :: cs => applyFrom rules skip inString (isBoundary c) cs
  | 0, inString, fresh, c :: cs =>
    match if !inString && fresh then longest? rules (c :: cs) else none with
    | some (r, n) => r.output ++ applyFrom rules (n - 1) inString (isBoundary c) cs
    | none => c :: applyFrom rules 0 (inString ^^ (c == '"')) (isBoundary c) cs

def applyAll (rules : List Rewrite) (cs : List Char) : List Char := applyFrom rules 0 false true cs

def dropArticles : List Rewrite := articles.map fun a => ⟨[a.toList], []⟩

def writeKeywords : List Rewrite := Keyword.all.map fun k => ⟨k.words, k.written⟩

end Rewrite

/-- Articles go first, so that phrases may meet across them. -/
def rewriteKeywords (text : List Char) : List Char :=
  Rewrite.applyAll Rewrite.writeKeywords (Rewrite.applyAll Rewrite.dropArticles text)

end InventoryQuery
