import InventoryQuery.Cursor.Prediction

/-! What can be written at the cursor: the properties of the marked type, nearest first, each label
once. -/

namespace InventoryQuery.Cursor

inductive CompletionKind where
  | property
  | creation
  deriving Repr, DecidableEq

/-- The number that editors know the kind by. -/
def CompletionKind.number : CompletionKind → Nat
  | property => 10
  | creation => 3

structure Completion where
  label : String
  kind : CompletionKind
  detail : String
  documentation : String
  /-- What is typed for the user; `$0` is where the cursor goes. -/
  insertText : String
  priority : Nat
  deriving Repr, DecidableEq

def label (f : PropertyFact) : String := String.ofList (upTo " of ".toList f.indexKeyChars)

def snippet (f : PropertyFact) : String :=
  let phrase := (f.plural.or f.singular).getD (label f)
  match f.parameterTypes with
  | [] => phrase
  | [type] => if type = "string" then phrase ++ " \"$0\"" else phrase ++ " $0"
  | _ => phrase ++ " ($0, )"

def documentation (f : PropertyFact) : String :=
  let description := (f.description.map (· ++ "\n\n")).getD ""
  let plural := (f.plural.map fun p => "Plural: " ++ p ++ "\n").getD ""
  let result := "Return type: " ++ f.resultType ++ "\n"
  let availability := f.availability.entries.map fun e => e.1 ++ ": " ++ ", ".intercalate e.2 ++ "\n"
  String.ofList (trimRight (description ++ plural ++ result ++ String.join availability).toList)

/-- Before a list gives them their order, completions have this priority. -/
def standardPriority : Nat := 100

/-- A fact without a singular phrase is not offered. -/
def completionOf? (f : PropertyFact) : Option Completion :=
  if f.singular.isSome then
    some ⟨label f, if f.isCreation then .creation else .property, f.resultType, documentation f, snippet f, standardPriority⟩
  else none

def firstOfEachLabel : (seen : List String) → List Completion → List Completion
  | _, [] => []
  | seen, c :: cs =>
    if seen.contains c.label then firstOfEachLabel seen cs else c :: firstOfEachLabel (c.label :: seen) cs

def completionsOf (facts : List PropertyFact) : List Completion :=
  (firstOfEachLabel [] (facts.filterMap completionOf?)).mapIdx fun i c => { c with priority := i }

/-- Nothing is offered where nothing is marked or the marked node has no type. -/
def Prediction.completions (p : Prediction) (ix : Index) : List Completion :=
  match p.markedType ix with
  | some (.ok ty) => completionsOf (ty.properties ix)
  | _ => []

end InventoryQuery.Cursor
