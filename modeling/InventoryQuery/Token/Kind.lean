/-! The kinds of token, their names in messages and the classes they fall into. -/

namespace InventoryQuery

inductive Kind where
  | blank
  | word
  | phrase
  | numeral
  | string
  | leftParen
  | rightParen
  | semicolon
  | comma
  | plus
  | minus
  | star
  | slash
  | ampersand
  | arrow
  | question
  | relation
  | ifWord
  | thenWord
  | elseWord
  | orWord
  | andWord
  | notWord
  | modWord
  | existsWord
  | notExistsWord
  | itsWord
  | itWord
  | whoseWord
  | asWord
  | ofWord
  | invalid
  | endOfInput
  deriving Repr, DecidableEq, Inhabited

namespace Kind

def isBlank : Kind → Bool
  | blank => true
  | _ => false

def isKeyword : Kind → Bool
  | ifWord | thenWord | elseWord | orWord | andWord | notWord | modWord | existsWord | notExistsWord | itsWord | itWord
  | whoseWord | asWord | ofWord => true
  | _ => false

def isLiteral : Kind → Bool
  | numeral | string => true
  | _ => false

/-- Can open the argument of a phrase, as in `file "x"`, `item 2` or `file ?`. -/
def startsPrimary : Kind → Bool
  | leftParen | string | numeral | itWord | question => true
  | _ => false

def display : Kind → String
  | blank => "whitespace"
  | word | phrase => "phrase"
  | numeral => "number"
  | string => "string"
  | leftParen => "'('"
  | rightParen => "')'"
  | semicolon => "';'"
  | comma => "','"
  | plus => "'+'"
  | minus => "'-'"
  | star => "'*'"
  | slash => "'/'"
  | ampersand => "'&'"
  | arrow => "property arrow"
  | question => "'?'"
  | relation => "relation"
  | ifWord => "'if'"
  | thenWord => "'then'"
  | elseWord => "'else'"
  | orWord => "'or'"
  | andWord => "'and'"
  | notWord => "'not'"
  | modWord => "'mod'"
  | existsWord => "'exists'"
  | notExistsWord => "'not exists'"
  | itsWord => "'its'"
  | itWord => "'it'"
  | whoseWord => "'whose'"
  | asWord => "'as'"
  | ofWord => "'of'"
  | invalid => "invalid token"
  | endOfInput => "end of input"

end Kind

end InventoryQuery
