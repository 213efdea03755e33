/-! The codes under which syntax errors are reported: 01 for characters, 02 for parentheses, 04 for
expressions, 09 for the rest. -/

namespace InventoryQuery

inductive Code where
  | invalidCharacter
  | unterminatedString
  | unknownKeyword
  | unclosedParen
  | unexpectedClosing
  | nestedTooDeeply
  | missingOperand
  | chainedRelation
  | expectedExpression
  | missingThen
  | missingElse
  | missingCastType
  | unexpectedToken
  deriving Repr, DecidableEq, Inhabited

namespace Code

def all : List Code :=
  [invalidCharacter, unterminatedString, unknownKeyword, unclosedParen, unexpectedClosing, nestedTooDeeply, missingOperand,
   chainedRelation, expectedExpression, missingThen, missingElse, missingCastType, unexpectedToken]

def name : Code → String
  | invalidCharacter => "E0101"
  | unterminatedString => "E0102"
  | unknownKeyword => "E0103"
  | unclosedParen => "E0203"
  | unexpectedClosing => "E0205"
  | nestedTooDeeply => "E0401"
  | missingOperand => "E0402"
  | chainedRelation => "E0403"
  | expectedExpression => "E0406"
  | missingThen => "E0407"
  | missingElse => "E0408"
  | missingCastType => "E0409"
  | unexpectedToken => "E0901"

def ofName? (name : String) : Option Code := all.find? (·.name = name)

def defaultMessage : Code → String
  | invalidCharacter => "invalid character"
  | unterminatedString => "unterminated string literal"
  | unknownKeyword => "unknown keyword"
  | unclosedParen => "unclosed parenthesis"
  | unexpectedClosing => "unexpected closing delimiter"
  | nestedTooDeeply => "expression nested too deeply"
  | missingOperand => "missing operand"
  | chainedRelation => "chained relation"
  | expectedExpression => "expected expression"
  | missingThen => "missing 'then' keyword"
  | missingElse => "missing 'else' keyword"
  | missingCastType => "missing cast type"
  | unexpectedToken => "unexpected token"

end Code

end InventoryQuery
