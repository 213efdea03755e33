import InventoryQuery.Proofs.Grammar.Locality
import InventoryQuery.Proofs.Grammar.Relabelling

/-! Two runs of a rule side by side, on tokens that the rule cannot tell from one another, where the
rules that it calls on may be others. A relation that the few steps keep, out of which the rules are
put together, is kept by every rule: there is one lemma for each way of putting parsers together, and
one for each rule. -/

namespace InventoryQuery

open Grammar

namespace Grammar

variable {α β : Type}

/-- Parsers that are put together from the steps of the grammar are related by `rel` if their parts are.
Where both look at the next token, the one sees a token that is `alike` the other's. -/
structure Lockstep (alike : Token → Token → Prop) (rel : ∀ {α : Type}, Parser α → Parser α → Prop) : Prop where
  sense {t u : Token} : alike t u → t.sense = u.sense
  pure {α : Type} (a : α) : rel (pure a) (pure a)
  bind {α β : Type} {p p' : Parser α} {q q' : α → Parser β} :
    rel p p' → (∀ a, rel (q a) (q' a)) → rel (p >>= q) (p' >>= q')
  peek {β : Type} {q q' : Token → Parser β} :
    (∀ t u, alike t u → rel (q t) (q' u)) → rel (peek >>= q) (peek >>= q')
  advance : rel advance advance
  enter (shape : Shape NodeId) {t u : Token} : alike t u → rel (enter shape t.start) (enter shape u.start)
  unexpected {α : Type} : rel (failWith unexpected : Parser α) (failWith unexpected)
  /-- A cause may depend on a token that was read before; its code does not. -/
  failWith {α : Type} (cause : Token → State → Cause) {t u : Token} :
    (∀ x y s s', (cause x s).code = (cause y s').code) → alike t u →
      rel (failWith (cause t) : Parser α) (failWith (cause u))
  /-- The number of tokens that are left bounds a repetition. -/
  bounded {α : Type} {p p' : Nat → Parser α} :
    (∀ n, rel (p n) (p' n)) → rel (fun s => p s.rest.length s) (fun s => p' s.rest.length s)

namespace Lockstep

variable {alike : Token → Token → Prop} {rel : ∀ {α : Type}, Parser α → Parser α → Prop}
variable (w : Lockstep alike rel)

include w

theorem map {p p' : Parser α} (f : α → β) (hp : rel p p') : rel (f <$> p) (f <$> p') :=
  w.bind hp fun a => w.pure (f a)

/-- Tokens that are alike have one kind. -/
theorem look {q q' : Token → Parser β}
    (hq : ∀ kind text text' start start', alike ⟨kind, text, start⟩ ⟨kind, text', start'⟩ →
      rel (q ⟨kind, text, start⟩) (q' ⟨kind, text', start'⟩)) :
    rel (Grammar.peek >>= q) (Grammar.peek >>= q') := by
  refine w.peek fun t u same => ?_
  obtain ⟨kind, text, start⟩ := t
  obtain ⟨kind', text', start'⟩ := u
  obtain rfl : kind = kind' := congrArg Prod.fst (w.sense same)
  exact hq kind text text' start start' same

theorem accept (k : Kind) : rel (accept k) (accept k) := by
  rw [accept_eq]
  refine w.look fun kind _ _ _ _ _ => ?_
  dsimp only
  split
  · exact w.bind w.advance fun _ => w.pure true
  · exact w.pure false

theorem repeated {step step' : α → Parser (Option α)} (hs : ∀ a, rel (step a) (step' a)) (a : α) :
    rel (repeated step a) (repeated step' a) := by
  have steps (n : Nat) (a : α) : rel (iterate step n a) (iterate step' n a) := by
    induction n generalizing a with
    | zero => exact w.pure a
    | succ n ih =>
      refine w.bind (hs a) fun o => ?_
      cases o with
      | none => exact w.pure a
      | some b => exact ih b
  exact w.bounded fun n => steps (n + 1) a

end Lockstep

section rules

variable {alike : Token → Token → Prop} {rel : ∀ {α : Type}, Parser α → Parser α → Prop}
variable {nested other : Context → Rule → Parser NodeId}
variable (w : Lockstep alike rel) (hn : ∀ c r, rel (nested c r) (other c r))

include w hn

theorem lockstep_primary : rel (primary nested) (primary other) := by
  refine w.look fun kind text text' start start' same => ?_
  cases kind with
  | leftParen =>
    refine w.bind w.advance fun _ => w.bind (hn _ _) fun content => w.bind (w.accept _) fun closed => ?_
    cases closed
    · exact w.failWith (fun t s => .unclosedParen s.here.kind t.span) (fun _ _ _ _ => rfl) same
    · exact w.enter _ same
  | string | numeral =>
    have value := String.ofList_injective (congrArg Prod.snd (w.sense same))
    dsimp only at value ⊢
    rw [value]
    exact w.bind w.advance fun _ => w.enter _ same
  | itWord | question => exact w.bind w.advance fun _ => w.enter _ same
  | _ => exact w.unexpected

theorem lockstep_reference : rel (reference nested) (reference other) := by
  refine w.look fun kind text text' start start' same => ?_
  by_cases phrase : kind = .phrase
  · subst phrase
    have name : phraseName text = phraseName text' := congrArg Prod.snd (w.sense same)
    simp only [if_true, name]
    refine w.bind w.advance fun _ => w.look fun next _ _ _ _ _ => ?_
    cases next.startsPrimary
    · exact w.bind (w.pure none) fun argument => w.enter _ same
    · exact w.bind (w.map some (hn _ _)) fun argument => w.enter _ same
  · simp only [if_neg phrase]
    exact lockstep_primary w hn

theorem lockstep_selection : rel (selection nested) (selection other) := by
  refine w.look fun _ _ _ _ _ same => w.bind (lockstep_reference w hn) fun source => ?_
  refine w.repeated (fun a => w.bind (w.accept _) fun found => ?_) source
  cases found
  · exact w.pure none
  · exact w.bind (hn _ _) fun filter => w.map _ (w.enter _ same)

theorem lockstep_arrowStep {t u : Token} (same : alike t u) (source : NodeId) :
    rel (arrowStep nested t.start source) (arrowStep other u.start source) := by
  refine w.bind (w.accept _) fun found => ?_
  cases found
  · exact w.pure none
  refine w.look fun kind _ _ _ _ _ => ?_
  cases kind with
  | existsWord | notExistsWord => exact w.bind w.advance fun _ => w.map _ (w.enter _ same)
  | _ => exact w.bind (hn _ _) fun accessor => w.map _ (w.enter _ same)

theorem lockstep_property : rel (property nested) (property other) := by
  refine w.peek fun t u same => w.bind (w.accept _) fun its => ?_
  cases its
  · refine w.bind (lockstep_selection w hn) fun chosen => w.bind (w.accept _) fun found => ?_
    cases found
    · exact w.repeated (lockstep_arrowStep w hn same) chosen
    · exact w.bind (hn _ _) fun source => w.enter _ same
  · exact w.bind (w.enter _ same) fun it => w.bind (hn _ _) fun accessor =>
      w.bind (w.enter _ same) fun chosen => w.repeated (lockstep_arrowStep w hn same) chosen

theorem lockstep_cast : rel (cast nested) (cast other) := by
  refine w.peek fun t u same => w.bind (lockstep_property w hn) fun source => ?_
  refine w.repeated (fun a => w.bind (w.accept _) fun found => ?_) source
  cases found
  · exact w.pure none
  refine w.look fun kind text text' _ _ next => ?_
  by_cases phrase : kind = .phrase
  · subst phrase
    have name : phraseName text = phraseName text' := congrArg Prod.snd (w.sense next)
    simp only [if_true, name]
    exact w.bind w.advance fun _ => w.map _ (w.enter _ same)
  · simp only [if_neg phrase]
    exact w.failWith (fun _ s => .missingCastType s.here.kind) (fun _ _ _ _ => rfl) next

theorem lockstep_operand (r : Rule) : rel (operand nested r) (operand other r) := by
  refine w.look fun kind _ _ _ _ same => ?_
  dsimp only
  split
  · exact w.failWith (fun _ _ => .missingOperand) (fun _ _ _ _ => rfl) same
  · exact hn _ _

theorem lockstep_unary : rel (unary nested) (unary other) := by
  refine w.look fun kind _ _ _ _ same => ?_
  dsimp only
  cases prefixOf? kind with
  | none => exact lockstep_cast w hn
  | some operator =>
    exact w.bind w.advance fun _ => w.bind (lockstep_operand w hn _) fun inner => w.enter _ same

theorem lockstep_chain (infixOf? : Kind → Option InfixOperator) {first first' : Parser NodeId}
    (hf : rel first first') (right : Rule) :
    rel (chain nested infixOf? first right) (chain other infixOf? first' right) := by
  refine w.peek fun t u same => w.bind hf fun left => ?_
  refine w.repeated (fun a => w.look fun kind _ _ _ _ _ => ?_) left
  dsimp only
  cases infixOf? kind with
  | none => exact w.pure none
  | some operator =>
    exact w.bind w.advance fun _ => w.bind (lockstep_operand w hn _) fun inner => w.map _ (w.enter _ same)

theorem lockstep_relation (hs : rel (sum nested) (sum other)) : rel (relation nested) (relation other) := by
  refine w.peek fun t u same => w.bind hs fun left => w.look fun kind text text' _ _ op => ?_
  by_cases relation : kind = .relation
  · subst relation
    obtain rfl : text = text' := String.ofList_injective (congrArg Prod.snd (w.sense op))
    simp only [if_true]
    refine w.bind w.advance fun _ => w.bind (lockstep_operand w hn _) fun right => w.look fun next _ _ _ _ twice => ?_
    dsimp only
    split
    · exact w.failWith (fun _ _ => .chainedRelation) (fun _ _ _ _ => rfl) twice
    · exact w.enter _ same
  · simp only [if_neg relation]
    exact w.pure left

theorem lockstep_separated (separator : Kind) (make : List NodeId → Shape NodeId) {first first' : Parser NodeId}
    (hf : rel first first') (item : Rule) :
    rel (separated nested separator make first item) (separated other separator make first' item) := by
  refine w.peek fun t u same => w.bind hf fun one => w.look fun kind _ _ _ _ _ => ?_
  dsimp only
  split
  · refine w.bind (w.repeated (fun items => w.bind (w.accept _) fun found => ?_) [one]) fun items => w.enter _ same
    cases found
    · exact w.pure none
    · exact w.bind (hn _ _) fun next => w.pure _
  · exact w.pure one

theorem lockstep_expression (hc : rel (collection nested) (collection other)) :
    rel (expression nested) (expression other) := by
  refine w.look fun kind _ _ _ _ same => ?_
  dsimp only
  split
  · refine w.bind w.advance fun _ => w.bind (hn _ _) fun condition => w.bind (w.accept _) fun found => ?_
    cases found
    · exact w.failWith (fun _ s => .missingThen s.here.kind) (fun _ _ _ _ => rfl) same
    refine w.bind (hn _ _) fun thenBranch => w.bind (w.accept _) fun found => ?_
    cases found
    · exact w.failWith (fun _ s => .missingElse s.here.kind) (fun _ _ _ _ => rfl) same
    · exact w.bind (hn _ _) fun elseBranch => w.enter _ same
  · exact hc

theorem lockstep_apply (r : Rule) : rel (apply nested r) (apply other r) := by
  induction r using Rule.level_induction with
  | primary => exact lockstep_primary w hn
  | looser r above ih =>
    cases r with
    | primary => exact absurd rfl above
    | reference => exact lockstep_reference w hn
    | selection => exact lockstep_selection w hn
    | property => exact lockstep_property w hn
    | cast => exact lockstep_cast w hn
    | unary => exact lockstep_unary w hn
    | product | sum | conjunction | disjunction => exact lockstep_chain w hn _ ih _
    | relation => exact lockstep_relation w hn ih
    | tuple | collection => exact lockstep_separated w hn _ _ ih _
    | expression => exact lockstep_expression w hn ih

end rules

end Grammar

end InventoryQuery
