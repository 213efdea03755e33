import InventoryQuery.Diagnostic.Code
import InventoryQuery.Diagnostic.Context
import InventoryQuery.Text.Span
import InventoryQuery.Token.Kind

/-! A syntax error is a cause and the span it points at. The report is what a reader is told: code,
message, a hint where there is one, and related places. -/

namespace InventoryQuery

structure Related where
  message : String
  span : Span
  deriving Repr, DecidableEq

structure Report where
  code : Code
  message : String
  span : Span
  hint : Option String
  related : List Related
  deriving Repr, DecidableEq

namespace Report

/-- Without a message the code speaks for itself, without a span the report points at the start of
the text. -/
def make (code : Code) (message : Option String) (span : Option Span) (hint : Option String) (related : List Related) : Report :=
  ⟨code, message.getD code.defaultMessage, span.getD (.empty 0), hint, related⟩

def unexpectedIn (context : Context) (found : String) : String :=
  "unexpected " ++ found ++ " " ++ context.description ++ ", expected " ++ context.expected

def inContext (found : String) (context : Context) (code : Code) (span : Span) : Report :=
  ⟨code, unexpectedIn context found, span, none, []⟩

def display (r : Report) : String := r.code.name ++ ": " ++ r.message

end Report

inductive Cause where
  | invalidCharacter (text : String)
  | unterminatedString
  | unknownKeyword (text : String)
  | unclosedParen (found : Kind) (opened : Span)
  | strayClosing (context : Context)
  | nestedTooDeeply
  | missingOperand
  | chainedRelation
  | endOfInput (context : Context)
  | missingThen (found : Kind)
  | missingElse (found : Kind)
  | missingCastType (found : Kind)
  | unexpected (found : Kind) (context : Context)
  deriving Repr, DecidableEq

namespace Cause

def code : Cause → Code
  | invalidCharacter _ => .invalidCharacter
  | unterminatedString => .unterminatedString
  | unknownKeyword _ => .unknownKeyword
  | unclosedParen .. => .unclosedParen
  | strayClosing _ => .unexpectedClosing
  | nestedTooDeeply => .nestedTooDeeply
  | missingOperand => .missingOperand
  | chainedRelation => .chainedRelation
  | endOfInput _ => .expectedExpression
  | missingThen _ => .missingThen
  | missingElse _ => .missingElse
  | missingCastType _ => .missingCastType
  | unexpected .. => .unexpectedToken

def instead (wanted : String) (found : Kind) : String := "expected " ++ wanted ++ ", found " ++ found.display

/-- At the end of the input the missing word is asked for by a hint, and the message is the default
one. -/
def missingWord (word : String) (found : Kind) : Option String × Option String :=
  if found = .endOfInput then (none, some ("add '" ++ word ++ "' followed by an expression"))
  else (some (instead ("'" ++ word ++ "'") found), none)

def message : Cause → Option String
  | invalidCharacter text => some ("invalid character '" ++ text ++ "'")
  | unknownKeyword text => some ("unknown keyword '" ++ text ++ "'")
  | unclosedParen found _ => some (instead "')'" found)
  | strayClosing context => some (Report.unexpectedIn context "')'")
  | chainedRelation => some "relations cannot be chained"
  | endOfInput context => some (Report.unexpectedIn context "end of input")
  | missingThen found => (missingWord "then" found).1
  | missingElse found => (missingWord "else" found).1
  | missingCastType found => some (instead "a type name after 'as'" found)
  | unexpected found context => some (Report.unexpectedIn context found.display)
  | unterminatedString | nestedTooDeeply | missingOperand => none

def hint : Cause → Option String
  | unterminatedString => some "close the string with '\"'"
  | nestedTooDeeply => some "split the expression or drop redundant parentheses"
  | chainedRelation => some "parenthesize one side of the comparison"
  | missingThen found => (missingWord "then" found).2
  | missingElse found => (missingWord "else" found).2
  | _ => none

def related : Cause → List Related
  | unclosedParen _ opened => [⟨"opened here", opened⟩]
  | _ => []

end Cause

structure SyntaxError where
  cause : Cause
  span : Span
  deriving Repr, DecidableEq

def SyntaxError.code (e : SyntaxError) : Code := e.cause.code

def SyntaxError.report (e : SyntaxError) : Report :=
  .make e.code e.cause.message (some e.span) e.cause.hint e.cause.related

end InventoryQuery
