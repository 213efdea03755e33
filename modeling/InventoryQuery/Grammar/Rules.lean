import InventoryQuery.Grammar.State
import InventoryQuery.Keyword.Phrase
import InventoryQuery.Text.Blank

/-! The rules of the grammar, from the loosest binding to the tightest:

    expression  = if expression then expression else expression | collection
    collection  = tuple (; tuple)*
    tuple       = disjunction (, disjunction)*
    disjunction = conjunction (or conjunction)*
    conjunction = relation (and relation)*
    relation    = sum (RELATION sum)?
    sum         = product ((+ | -) product)*
    product     = unary ((* | / | mod | &) unary)*
    unary       = (exists | not exists | not | -) unary | cast
    cast        = property (as PHRASE)*
    property    = selection of property | (its selection | selection) (-> (selection | exists | not exists))*
    selection   = reference (whose primary)*
    reference   = PHRASE primary? | primary
    primary     = ( expression ) | STRING | NUMERAL | it | ?

Both `a of b` and `b -> a` are the property `a` of the source `b`. A rule reaches another one either
directly, in its own context, or through `nested`, which opens a context and is where nesting is
counted. -/

namespace InventoryQuery.Grammar

inductive Rule where
  | expression
  | collection
  | tuple
  | disjunction
  | conjunction
  | relation
  | sum
  | product
  | unary
  | cast
  | property
  | selection
  | reference
  | primary
  deriving Repr, DecidableEq

/-- Why the next token can neither start nor continue what is being read. -/
def unexpected (s : State) : Cause :=
  let found := s.here
  match found.kind with
  | .endOfInput => .endOfInput s.contexts.innermost
  | .invalid =>
    match found.text with
    | '"' :: _ => .unterminatedString
    | '$' :: _ => .unknownKeyword (String.ofList found.text)
    | text => .invalidCharacter (String.ofList text)
  | .rightParen => .strayClosing s.contexts.innermost
  | kind => .unexpected kind s.contexts.innermost

def phraseName (text : List Char) : String := String.ofList ([' '].intercalate (blankSeparated text))

def unquoted (text : List Char) : String := String.ofList (text.drop 1).dropLast

section rules

variable (nested : Context → Rule → Parser NodeId)

def primary : Parser NodeId := do
  let t ← peek
  match t.kind with
  | .leftParen =>
    advance
    let content ← nested .parenthesized .expression
    if ← accept .rightParen then enter (.parens content) t.start
    else failWith fun s => .unclosedParen s.here.kind t.span
  | .string => do advance; enter (.string (unquoted t.text)) t.start
  | .numeral => do advance; enter (.number (String.ofList t.text)) t.start
  | .itWord => do advance; enter .it t.start
  | .question => do advance; enter .marker t.start
  | _ => failWith unexpected

def reference : Parser NodeId := do
  let t ← peek
  if t.kind = .phrase then
    advance
    let argument ← if (← peek).kind.startsPrimary then some <$> nested .phraseArgument .primary else pure none
    enter (.phrase (phraseName t.text) argument) t.start
  else primary nested

def whoseStep (start : Nat) (source : NodeId) : Parser (Option NodeId) := do
  if ← accept .whoseWord then
    let filter ← nested .whoseFilter .primary
    some <$> enter (.whose source filter) start
  else pure none

def selection : Parser NodeId := do
  let t ← peek
  let source ← reference nested
  repeated (whoseStep nested t.start) source

def arrowStep (start : Nat) (source : NodeId) : Parser (Option NodeId) := do
  if ← accept .arrow then
    match (← peek).kind with
    | .existsWord => do advance; some <$> enter (.unary .existence source) start
    | .notExistsWord => do advance; some <$> enter (.unary .absence source) start
    | _ =>
      let accessor ← nested .propertyChain .selection
      some <$> enter (.property accessor source) start
  else pure none

def property : Parser NodeId := do
  let t ← peek
  if ← accept .itsWord then
    let it ← enter .it t.start
    let accessor ← nested .propertyChain .selection
    let chosen ← enter (.property accessor it) t.start
    repeated (arrowStep nested t.start) chosen
  else
    let chosen ← selection nested
    if ← accept .ofWord then
      let source ← nested .propertyChain .property
      enter (.property chosen source) t.start
    else repeated (arrowStep nested t.start) chosen

def castStep (start : Nat) (source : NodeId) : Parser (Option NodeId) := do
  if ← accept .asWord then
    let t ← peek
    if t.kind = .phrase then
      advance
      some <$> enter (.cast source (phraseName t.text)) start
    else failWith fun s => .missingCastType s.here.kind
  else pure none

def cast : Parser NodeId := do
  let t ← peek
  let source ← property nested
  repeated (castStep t.start) source

/-- What an operator applies to; at the end of the input nothing is left for it. -/
def operand (rule : Rule) : Parser NodeId := do
  if (← peek).kind = .endOfInput then failWith fun _ => .missingOperand
  else nested .operand rule

def prefixOf? : Kind → Option PrefixOperator
  | .existsWord => some .existence
  | .notExistsWord => some .absence
  | .notWord => some .negation
  | .minus => some .minus
  | _ => none

def unary : Parser NodeId := do
  let t ← peek
  match prefixOf? t.kind with
  | some operator =>
    advance
    let inner ← operand nested .unary
    enter (.unary operator inner) t.start
  | none => cast nested

def chainStep (infixOf? : Kind → Option InfixOperator) (right : Rule) (start : Nat) (left : NodeId) :
    Parser (Option NodeId) := do
  match infixOf? (← peek).kind with
  | some operator =>
    advance
    let inner ← operand nested right
    some <$> enter (.binary operator left inner) start
  | none => pure none

/-- A chain of operators of one strength, grouped to the left. -/
def chain (infixOf? : Kind → Option InfixOperator) (first : Parser NodeId) (right : Rule) : Parser NodeId := do
  let t ← peek
  let left ← first
  repeated (chainStep nested infixOf? right t.start) left

def productOf? : Kind → Option InfixOperator
  | .star => some .times
  | .slash => some .divide
  | .modWord => some .modulo
  | .ampersand => some .concat
  | _ => none

def sumOf? : Kind → Option InfixOperator
  | .plus => some .plus
  | .minus => some .minus
  | _ => none

def conjunctionOf? : Kind → Option InfixOperator
  | .andWord => some .conjunction
  | _ => none

def disjunctionOf? : Kind → Option InfixOperator
  | .orWord => some .disjunction
  | _ => none

def product : Parser NodeId := chain nested productOf? (unary nested) .unary

def sum : Parser NodeId := chain nested sumOf? (product nested) .product

def relation : Parser NodeId := do
  let t ← peek
  let left ← sum nested
  let op ← peek
  if op.kind = .relation then
    advance
    let right ← operand nested .sum
    if (← peek).kind = .relation then failWith fun _ => .chainedRelation
    else enter (.binary (.relation (String.ofList (spokenForm op.text))) left right) t.start
  else pure left

def conjunction : Parser NodeId := chain nested conjunctionOf? (relation nested) .relation

def disjunction : Parser NodeId := chain nested disjunctionOf? (conjunction nested) .conjunction

def itemStep (separator : Kind) (item : Rule) (items : List NodeId) : Parser (Option (List NodeId)) := do
  if ← accept separator then
    let next ← nested .operand item
    pure (some (items ++ [next]))
  else pure none

/-- Items with separators between them; a single item stands for itself. -/
def separated (separator : Kind) (make : List NodeId → Shape NodeId) (first : Parser NodeId) (item : Rule) :
    Parser NodeId := do
  let t ← peek
  let one ← first
  if (← peek).kind = separator then
    let items ← repeated (itemStep nested separator item) [one]
    enter (make items) t.start
  else pure one

def tuple : Parser NodeId := separated nested .comma .tuple (disjunction nested) .disjunction

def collection : Parser NodeId := separated nested .semicolon .collection (tuple nested) .tuple

def expression : Parser NodeId := do
  let t ← peek
  if t.kind = .ifWord then
    advance
    let condition ← nested .condition .expression
    if ← accept .thenWord then
      let thenBranch ← nested .branch .expression
      if ← accept .elseWord then
        let elseBranch ← nested .branch .expression
        enter (.conditional condition thenBranch elseBranch) t.start
      else failWith fun s => .missingElse s.here.kind
    else failWith fun s => .missingThen s.here.kind
  else collection nested

def apply : Rule → Parser NodeId
  | .expression => expression nested
  | .collection => collection nested
  | .tuple => tuple nested
  | .disjunction => disjunction nested
  | .conjunction => conjunction nested
  | .relation => relation nested
  | .sum => sum nested
  | .product => product nested
  | .unary => unary nested
  | .cast => cast nested
  | .property => property nested
  | .selection => selection nested
  | .reference => reference nested
  | .primary => primary nested

end rules

/-- A rule in a context of its own, where `room` more contexts can be opened. -/
def nestedIn : (room : Nat) → Context → Rule → Parser NodeId
  | 0, _, _ => failWith fun _ => .nestedTooDeeply
  | room + 1, context, rule => within context (apply (nestedIn room) rule)

def run (rule : Rule) : Parser NodeId := fun s => apply (nestedIn s.contexts.room) rule s

def whole : Parser NodeId := do
  let root ← run .expression
  if (← peek).kind = .endOfInput then pure root else failWith unexpected

end InventoryQuery.Grammar
