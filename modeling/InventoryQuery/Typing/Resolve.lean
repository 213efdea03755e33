import InventoryQuery.Tree.Table
import InventoryQuery.Typing.Ty

/-! The type of a node of a tree with receivers. One step asks for the types of other nodes, of
parts and of receivers; receivers lie outside the subtree, so the number of steps is bounded by the
size of the tree and not by its height. -/

namespace InventoryQuery

/-- A type, an error, or nothing when the steps run out. -/
abbrev Typing := ExceptT TypeError Option

def lowered (name : String) : String := String.ofList (name.toList.map Char.toLower)

namespace Typing

def unfinished {α : Type} : Typing α := ExceptT.mk none

def ofExcept {α : Type} (r : Except TypeError α) : Typing α := ExceptT.mk (some r)

end Typing

namespace Tree

/-- Item `digits` of a tuple, when the phrase asks for an item and the number has 64 bits at
most. -/
def tupleItem? (t : Tree) (owner : Ty) (name : String) (argument : Option NodeId) : Option (Except TypeError Ty) :=
  match owner with
  | .tuple items =>
    if lowered name = "item" then
      match argument.bind t.shape? with
      | some (.number digits) =>
        let index := decimalValue digits.toList
        if index < wordLimit then
          match items[index]? with
          | some ty => some (.ok ty)
          | none => some (.error (.noItem index items.length))
        else none
      | _ => none
    else none
  | _ => none

section step

variable (t : Tree) (ix : Index) (ask : NodeId → Typing Ty)

def receiverType (n : Node) : Typing Ty :=
  match n.scope with
  | some scope => ask scope
  | none => throw .unboundIt

/-- The type of an argument, as keys spell it. -/
def argumentType (argument : Option NodeId) : Typing (Option String) :=
  match argument with
  | some id => do return some (← ask id).display
  | none => pure none

/-- A phrase that is not looked up on its receiver is a creation first, and a property of the
receiver only if there is no such creation; the error is that of the creation. -/
def phraseType (n : Node) (name : String) (argument : Option NodeId) : Typing Ty := do
  let name := lowered name
  if name = "true" || name = "false" then pure .boolean
  else
    let params ← argumentType ask argument
    if n.direct then
      let owner ← receiverType ask n
      Typing.ofExcept (owner.property ix name params)
    else
      match ix.creation name params with
      | .ok f => pure (.named f.resultType)
      | .error e =>
        match n.scope with
        | none => throw (.lookup e)
        | some scope =>
          tryCatch (do Typing.ofExcept ((← ask scope).property ix name params)) fun _ => throw (.lookup e)

def propertyType (accessor source : NodeId) : Typing Ty :=
  match t.shape? accessor with
  | some (.phrase name argument) => do
    let owner ← ask source
    match t.tupleItem? owner name argument with
    | some item => Typing.ofExcept item
    | none =>
      let params ← argumentType ask argument
      Typing.ofExcept (owner.property ix (lowered name) params)
  | _ => ask accessor

def typeStep (id : NodeId) : Typing Ty :=
  match t.nodes[id]? with
  | none => Typing.unfinished
  | some n =>
    match n.shape with
    | .string _ => pure .string
    | .number _ => pure .number
    | .it => receiverType ask n
    | .marker => if n.direct then receiverType ask n else pure .world
    | .phrase name argument => phraseType ix ask n name argument
    | .property accessor source => propertyType t ix ask accessor source
    | .whose source _ => ask source
    | .parens content => ask content
    | .cast _ target => pure (.named target)
    | .unary _ _ => pure .boolean
    | .binary operator _ _ => pure (if operator.isBoolean then .boolean else .unsupported operator.spelling)
    | .tuple items => Ty.tuple <$> items.mapM ask
    | .collection items =>
      match items with
      | first :: _ => ask first
      | [] => pure (.tuple [])
    | .conditional _ thenBranch _ => ask thenBranch

end step

def typeWithin (t : Tree) (ix : Index) : (steps : Nat) → NodeId → Typing Ty
  | 0, _ => Typing.unfinished
  | steps + 1, id => t.typeStep ix (t.typeWithin ix steps) id

/-- No node asks for itself, however indirectly, so no more steps than nodes are needed. -/
def typeOf? (t : Tree) (ix : Index) (id : NodeId) : Option (Except TypeError Ty) := (t.typeWithin ix t.size id).run

end Tree

end InventoryQuery
