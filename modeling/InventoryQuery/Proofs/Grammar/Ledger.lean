import InventoryQuery.Proofs.Grammar.Course

/-! The atoms of an expression are the nodes that a single token gives: strings, numerals, `it` and
markers. A rule enters them as it comes upon their tokens, so the atoms of the table, in the order
of their numbers, and those of the tokens still to be read are together the same after the rule as
before it. Once all is read, the table has the atoms of the text, in the order of the text. -/

namespace InventoryQuery

namespace Grammar

/-- What a token gives by itself, and where it starts. -/
def atomOf? (t : Token) : Option (Shape NodeId × Nat) :=
  match t.kind with
  | .string => some (.string (unquoted t.text), t.start)
  | .numeral => some (.number (String.ofList t.text), t.start)
  | .itWord | .itsWord => some (.it, t.start)
  | .question => some (.marker, t.start)
  | _ => none

end Grammar

namespace Shape

variable {α : Type}

def isAtom : Shape α → Bool
  | string _ | number _ | it | marker => true
  | _ => false

end Shape

def Node.atom? (n : Node) : Option (Shape NodeId × Nat) :=
  if n.shape.isAtom then some (n.shape, n.span.start) else none

namespace Grammar

/-- The atoms that have been entered, and those still to be read. -/
def State.ledger (s : State) : List (Shape NodeId × Nat) :=
  s.nodes.toList.filterMap Node.atom? ++ s.rest.filterMap atomOf?

namespace State

variable {s : State}

theorem ledger_advanced (h : atomOf? s.here = none) : s.advanced.ledger = s.ledger := by
  by_cases read : s.here.kind = .endOfInput
  · rw [advanced_of_endOfInput read]
  · rw [ledger, ledger, nodes_advanced, rest_eq_here_cons read, List.filterMap_cons_none h]

theorem ledger_entered {shape : Shape NodeId} (h : shape.isAtom = false) (start : Nat) :
    (s.entered shape start).ledger = s.ledger := by
  have atom : Node.atom? ⟨shape, ⟨start, max s.lastEnd start⟩, none, false⟩ = none := by
    simp [Node.atom?, h]
  simp [ledger, entered, List.filterMap_append, atom]

/-- A token that is an atom goes from the input to the table. -/
theorem ledger_taken {shape : Shape NodeId} (hs : shape.isAtom)
    (h : atomOf? s.here = some (shape, s.here.start)) :
    (s.advanced.entered shape s.here.start).ledger = s.ledger := by
  have read : s.here.kind ≠ .endOfInput := by
    intro eof
    simp [atomOf?, eof] at h
  have atom : Node.atom? ⟨shape, ⟨s.here.start, max s.advanced.lastEnd s.here.start⟩, none, false⟩ =
      some (shape, s.here.start) := by
    simp [Node.atom?, hs]
  rw [ledger, ledger, rest_eq_here_cons read, List.filterMap_cons_some h]
  simp [entered, nodes_advanced, List.filterMap_append, atom]

end State

theorem atomOf?_of_isLink {t : Token} (h : isLink t.kind) : atomOf? t = none := by
  cases hk : t.kind <;> simp_all [isLink, atomOf?]

/-- What a token gives by itself is an atom, or it is a phrase. -/
theorem atomOf?_of_single? {t : Token} {shape : Shape NodeId} (h : single? t = some shape) :
    atomOf? t = if shape.isAtom then some (shape, t.start) else none := by
  unfold single? at h
  split at h <;> cases h <;> simp_all [atomOf?, Shape.isAtom]

theorem not_isAtom_of_children {shape : Shape NodeId} (h : shape.children ≠ []) : shape.isAtom = false := by
  cases shape <;> first | rfl | exact absurd rfl h

/-- Whatever is read, the atoms that have been entered and those still to be read are the same. -/
theorem Reads.ledger {s t : State} {ids : List NodeId} (h : Reads s ids t) : t.ledger = s.ledger := by
  induction h with
  | nothing => rfl
  | append _ _ ih ih' => exact ih'.trans ih
  | link hk => exact State.ledger_advanced (atomOf?_of_isLink hk)
  | @leaf s shape hs =>
    have atom := atomOf?_of_single? hs
    split at atom
    case isTrue taken => exact State.ledger_taken taken atom
    case isFalse other => rw [State.ledger_entered (by simpa using other), State.ledger_advanced atom]
  | enclosed ho _ hc ih =>
    rw [State.ledger_advanced (by simp [atomOf?, hc]), ih, State.ledger_advanced (by simp [atomOf?, ho])]
  | entered _ filled hp ih =>
    rw [State.ledger_entered (not_isAtom_of_children fun empty => filled (by simpa [empty] using hp)), ih]
  | within _ _ ih => exact ih

end Grammar

open Grammar

/-- An accepted text gives its atoms to the table, in the order of the text. -/
theorem atoms_of_parse {text : List Char} {t : Tree} (h : parse text = .ok t) :
    t.nodes.toList.filterMap Node.atom? = (tokens text).dropLast.filterMap atomOf? := by
  obtain ⟨s, nodes, made, rest⟩ := makes_of_parse h
  have kept := made.reads.ledger
  have ending : [Token.endOf text].filterMap atomOf? = [] := rfl
  have initial : (State.initial (tokens text)).ledger = (tokens text).dropLast.filterMap atomOf? := by
    change [].filterMap Node.atom? ++ (tokens text).filterMap atomOf? = _
    conv_lhs => rw [tokens_eq, List.filterMap_append, ending, List.append_nil]
    rfl
  rwa [initial, State.ledger, rest, ending, List.append_nil, nodes] at kept

end InventoryQuery
