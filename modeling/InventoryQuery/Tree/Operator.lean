/-! The operators of expressions and their spellings. -/

namespace InventoryQuery

inductive PrefixOperator where
  | existence
  | absence
  | negation
  | minus
  deriving Repr, DecidableEq

def PrefixOperator.spelling : PrefixOperator → String
  | existence => "exists"
  | absence => "not exists"
  | negation => "not"
  | minus => "-"

/-- A relation keeps the words it was written with, since many spellings mean the same
comparison. -/
inductive InfixOperator where
  | relation (words : String)
  | conjunction
  | disjunction
  | plus
  | minus
  | times
  | divide
  | modulo
  | concat
  deriving Repr, DecidableEq

namespace InfixOperator

def spelling : InfixOperator → String
  | relation words => words
  | conjunction => "and"
  | disjunction => "or"
  | plus => "+"
  | minus => "-"
  | times => "*"
  | divide => "/"
  | modulo => "mod"
  | concat => "&"

def isBoolean : InfixOperator → Bool
  | relation _ | conjunction | disjunction => true
  | _ => false

end InfixOperator

end InventoryQuery
