import InventoryQuery.Grammar.Rules
import InventoryQuery.Keyword.Rewriting
import InventoryQuery.Token.Stream
import InventoryQuery.Tree.Scope

/-! From text to tree. `parse` takes text whose keywords are rewritten already; `compile` takes text
as it is typed, and places the receivers. Spans refer to the rewritten text in both cases. -/

namespace InventoryQuery

def parseTokens (ts : List Token) : Except SyntaxError Tree :=
  match Grammar.whole (.initial ts) with
  | .error e _ => .error e
  | .ok root s =>
    match s.tooHigh with
    | some span => .error ⟨.nestedTooDeeply, span⟩
    | none => .ok ⟨s.nodes, root⟩

def parse (text : List Char) : Except SyntaxError Tree := parseTokens (tokens text)

def compile (text : List Char) : Except SyntaxError Tree := do
  let t ← parse (rewriteKeywords text)
  pure t.withScopes

end InventoryQuery
