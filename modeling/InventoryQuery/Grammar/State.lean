import InventoryQuery.Diagnostic.SyntaxError
import InventoryQuery.Repetition
import InventoryQuery.Token.Lexeme
import InventoryQuery.Tree.Table

/-! What the grammar works on: the tokens still to be read, the table built so far, and the stack of
contexts that tells an error where it happened. The stack has a fixed depth, so nesting is bounded,
and so is the height of a tree. -/

namespace InventoryQuery.Grammar

/-- How deep sub-expressions may nest. -/
def maxNesting : Nat := 64

def maxHeight : Nat := 256

/-- The contexts that are open, the innermost first. The whole expression is one more context than
its deepest nesting. -/
structure ContextStack where
  entries : List Context
  bounded : entries.length ≤ maxNesting + 1
  deriving Repr, DecidableEq

namespace ContextStack

def initial : ContextStack := ⟨[.topLevel], by decide⟩

def innermost (s : ContextStack) : Context := s.entries.head?.getD .topLevel

def room (s : ContextStack) : Nat := maxNesting + 1 - s.entries.length

def push? (s : ContextStack) (c : Context) : Option ContextStack :=
  if h : s.entries.length ≤ maxNesting then some ⟨c :: s.entries, Nat.succ_le_succ h⟩ else none

def pop (s : ContextStack) : ContextStack :=
  ⟨s.entries.tail, by have := s.bounded; rw [List.length_tail]; omega⟩

theorem pop_push? {s t : ContextStack} {c : Context} (h : s.push? c = some t) : t.pop = s := by
  unfold push? at h
  split at h
  · cases h; rfl
  · cases h

end ContextStack

structure State where
  rest : List Token
  nodes : Array Node
  /-- The height of the tree under each node. -/
  heights : Array Nat
  /-- The first node that is too high. -/
  tooHigh : Option Span
  contexts : ContextStack
  /-- Where the last token that was read ends. -/
  lastEnd : Nat
  deriving Repr

namespace State

def initial (tokens : List Token) : State := ⟨tokens, #[], #[], none, .initial, 0⟩

def here (s : State) : Token := s.rest.head?.getD ⟨.endOfInput, [], s.lastEnd⟩

/-- Nothing is read past the end of the input. -/
def advanced (s : State) : State :=
  match s.rest with
  | [] => s
  | t :: rest => if t.kind = .endOfInput then s else { s with rest := rest, lastEnd := t.span.stop }

def heightOf (s : State) (shape : Shape NodeId) : Nat :=
  1 + (shape.children.filterMap fun child => s.heights[child]?).foldl max 0

/-- The table with one more node, which starts at `start` and ends with the last token read. -/
def entered (s : State) (shape : Shape NodeId) (start : Nat) : State :=
  let span : Span := ⟨start, max s.lastEnd start⟩
  let height := s.heightOf shape
  { s with
    nodes := s.nodes.push ⟨shape, span, none, false⟩
    heights := s.heights.push height
    tooHigh := if height > maxHeight && s.tooHigh.isNone then some span else s.tooHigh }

end State

abbrev Parser := EStateM SyntaxError State

def peek : Parser Token := fun s => .ok s.here s

def advance : Parser Unit := fun s => .ok () s.advanced

def accept (kind : Kind) : Parser Bool := fun s =>
  if s.here.kind = kind then .ok true s.advanced else .ok false s

def enter (shape : Shape NodeId) (start : Nat) : Parser NodeId := fun s => .ok s.nodes.size (s.entered shape start)

/-- Every error points at the token to be read next. -/
def failWith {α : Type} (cause : State → Cause) : Parser α := fun s => .error ⟨cause s, s.here.span⟩ s

/-- The context is closed again whether the part succeeds or fails. -/
def within {α : Type} (context : Context) (part : Parser α) : Parser α := fun s =>
  match s.contexts.push? context with
  | none => failWith (fun _ => .nestedTooDeeply) s
  | some contexts =>
    match part { s with contexts := contexts } with
    | .ok a t => .ok a { t with contexts := t.contexts.pop }
    | .error e t => .error e { t with contexts := t.contexts.pop }

/-- A step that does not decline reads a token, so there cannot be more steps than tokens. -/
def repeated {α : Type} (step : α → Parser (Option α)) : α → Parser α := untilDeclined (·.rest.length) step

end InventoryQuery.Grammar
