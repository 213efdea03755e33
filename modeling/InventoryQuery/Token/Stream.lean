import InventoryQuery.Token.Lexeme

/-! The tokens that the grammar reads: blanks are gone, words with nothing but blanks between them
are one phrase, and a token for the end of the input comes last. -/

namespace InventoryQuery

namespace Token

/-- `open?` is the phrase being collected, `gap` the blanks read since its last word. -/
def joinWords (open? : Option Token) (gap : List Char) : List Token → List Token
  | [] => open?.toList
  | t :: ts =>
    match t.kind with
    | .blank => joinWords open? (gap ++ t.text) ts
    | .word =>
      match open? with
      | some p => joinWords (some { p with text := p.text ++ gap ++ t.text }) [] ts
      | none => joinWords (some { t with kind := .phrase }) [] ts
    | _ => open?.toList ++ t :: joinWords none [] ts

def endOf (text : List Char) : Token := ⟨.endOfInput, [], byteSize text⟩

end Token

def tokens (text : List Char) : List Token := Token.joinWords none [] (lexemes text) ++ [Token.endOf text]

end InventoryQuery
