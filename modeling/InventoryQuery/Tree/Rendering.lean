import InventoryQuery.Tree.Expr
import InventoryQuery.Text.Quoted

/-! Two ways to write an expression down: as text of the language, and fully bracketed with the name
of every form. The bracketed form leaves nothing out, so two expressions that share it are the
same. -/

namespace InventoryQuery.Expr

mutual

def display : Expr → String
  | node (.string value) => "\"" ++ value ++ "\""
  | node (.number digits) => digits
  | node .it => "it"
  | node (.phrase name none) => name
  | node (.phrase name (some argument)) => name ++ " " ++ argument.display
  | node (.property accessor source) => accessor.display ++ " of " ++ source.display
  | node (.whose source filter) => source.display ++ " whose " ++ filter.display
  | node (.parens content) => "(" ++ content.display ++ ")"
  | node (.cast source target) => source.display ++ " as " ++ target
  | node (.unary .minus operand) => "-" ++ operand.display
  | node (.unary operator operand) => operator.spelling ++ " " ++ operand.display
  | node (.binary operator left right) => left.display ++ " " ++ operator.spelling ++ " " ++ right.display
  | node (.tuple items) => displayAll ", " items
  | node (.collection items) => displayAll "; " items
  | node (.conditional condition thenBranch elseBranch) =>
    "if " ++ condition.display ++ " then " ++ thenBranch.display ++ " else " ++ elseBranch.display
  | node .marker => "?"

def displayAll (separator : String) : List Expr → String
  | [] => ""
  | [e] => e.display
  | e :: es => e.display ++ separator ++ displayAll separator es

end

/-- Digits stand for themselves, any other text of a form is quoted. -/
def label : Shape Expr → String
  | .number digits => " " ++ digits
  | s => match s.text? with
    | some text => " " ++ quoted text
    | none => ""

mutual

def bracketed : Expr → String
  | node s => "(" ++ s.tag ++ label s ++ bracketedParts s ++ ")"

def bracketedParts : Shape Expr → String
  | .string _ | .number _ | .it | .marker => ""
  | .phrase _ none => ""
  | .phrase _ (some argument) => " " ++ argument.bracketed
  | .property accessor source => " " ++ accessor.bracketed ++ " " ++ source.bracketed
  | .whose source filter => " " ++ source.bracketed ++ " " ++ filter.bracketed
  | .parens content => " " ++ content.bracketed
  | .cast source _ => " " ++ source.bracketed
  | .unary _ operand => " " ++ operand.bracketed
  | .binary _ left right => " " ++ left.bracketed ++ " " ++ right.bracketed
  | .tuple items => bracketedAll items
  | .collection items => bracketedAll items
  | .conditional condition thenBranch elseBranch =>
    " " ++ condition.bracketed ++ " " ++ thenBranch.bracketed ++ " " ++ elseBranch.bracketed

def bracketedAll : List Expr → String
  | [] => ""
  | e :: es => " " ++ e.bracketed ++ bracketedAll es

end

/-- Equal as bracketed texts. -/
def sameShape (a b : Expr) : Bool := a.bracketed == b.bracketed

end InventoryQuery.Expr
