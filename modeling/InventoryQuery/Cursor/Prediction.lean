import InventoryQuery.Cursor.Splice
import InventoryQuery.Grammar.Compile
import InventoryQuery.Typing.Resolve

/-! What stands at the cursor. A marker is put there and the text is compiled; as long as that
fails, one more parenthesis is closed at the end. -/

namespace InventoryQuery.Cursor

structure Options where
  /-- How often to compile at most. -/
  maxAttempts : Nat
  /-- The characters next to which the marker may be put. -/
  boundaries : List Char
  deriving Repr, DecidableEq

def Options.standard : Options := ⟨3, [' ', '.', '(', ')']⟩

/-- What the marker stands for: a property of its receiver, or anything that the world can
create. -/
inductive Marked where
  | node (id : NodeId)
  | world (scope : Option NodeId)
  deriving Repr, DecidableEq

structure Prediction where
  /-- The text that was compiled last, with the parenthesis that its failure called for. -/
  candidate : List Char
  attempts : Nat
  /-- The first tree that compiled. -/
  tree : Option Tree
  /-- The node of the marker that was put in. -/
  marker : Option NodeId
  deriving Repr, DecidableEq

def tryCandidates (ordinal : Nat) : (left attempts : Nat) → (candidate : List Char) → Prediction
  | 0, attempts, candidate => ⟨candidate, attempts, none, none⟩
  | left + 1, attempts, candidate =>
    match compile candidate with
    | .ok tree => ⟨candidate, attempts + 1, some tree, tree.markers[ordinal]?⟩
    | .error _ => tryCandidates ordinal left (attempts + 1) (candidate ++ [')'])

def predict (options : Options) (text : List Char) (offset : Nat) : Prediction :=
  let spliced := splice text offset options.boundaries
  tryCandidates spliced.ordinal options.maxAttempts 0 spliced.candidate

namespace Prediction

def isEmpty (p : Prediction) : Bool := p.tree.isNone

def marked (p : Prediction) : Option Marked := do
  let tree ← p.tree
  let marker ← p.marker
  pure (if tree.isDirect marker then .node marker else .world (tree.scope? marker))

def markedType (p : Prediction) (ix : Index) : Option (Except TypeError Ty) := do
  let tree ← p.tree
  match ← p.marked with
  | .node id => tree.typeOf? ix id
  | .world _ => pure (.ok .world)

def filterAbove (tree : Tree) (parents : Array (Option NodeId)) : (n : Nat) → (child : NodeId) → Option NodeId
  | 0, _ => none
  | n + 1, child =>
    match parents[child]?.getD none with
    | none => none
    | some parent =>
      match tree.shape? parent with
      | some (.whose _ filter) => if filter = child then some child else filterAbove tree parents n parent
      | _ => filterAbove tree parents n parent

/-- The innermost filter around the marker. -/
def enclosingFilter (p : Prediction) : Option NodeId := do
  let tree ← p.tree
  filterAbove tree tree.parents tree.size (← p.marker)

def enclosingFilterType (p : Prediction) (ix : Index) : Option (Except TypeError Ty) := do
  let tree ← p.tree
  tree.typeOf? ix (← p.enclosingFilter)

end Prediction

end InventoryQuery.Cursor
