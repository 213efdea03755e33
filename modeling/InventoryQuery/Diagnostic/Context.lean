/-! The part of an expression that is being read, as error messages name it. -/

namespace InventoryQuery

inductive Context where
  | topLevel
  | parenthesized
  | condition
  | branch
  | whoseFilter
  | phraseArgument
  | propertyChain
  | operand
  deriving Repr, DecidableEq, Inhabited

namespace Context

def description : Context → String
  | topLevel => "at top level"
  | parenthesized => "in parentheses"
  | condition => "in if condition"
  | branch => "in conditional branch"
  | whoseFilter => "in whose filter"
  | phraseArgument => "in phrase argument"
  | propertyChain => "in property chain"
  | operand => "in operand"

def expected : Context → String
  | whoseFilter => "a parenthesized filter"
  | phraseArgument => "a string, number, \x60it\x60 or parenthesized argument"
  | propertyChain => "a property name"
  | topLevel | parenthesized | condition | branch | operand => "an expression"

end Context

end InventoryQuery
