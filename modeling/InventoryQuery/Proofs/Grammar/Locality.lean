import InventoryQuery.Proofs.Grammar.Derivation
import InventoryQuery.Proofs.Repetition

/-! What a parser does depends on the tokens that it reads and on the one that comes next, and on
nothing further on: the input behind that token can be exchanged, and the run stays the same. Errors
are part of this, since an error points at the token that comes next. It also follows that a parser
leaves a tail of its input. -/

namespace InventoryQuery.Grammar

variable {α β : Type}

theorem bind_apply (p : Parser α) (q : α → Parser β) (s : State) :
    (p >>= q) s =
      match p s with
      | .ok a t => q a t
      | .error e t => .error e t := by
  change EStateM.bind p q s = _
  unfold EStateM.bind
  cases p s <;> rfl

@[simp] theorem peek_bind (q : Token → Parser β) (s : State) : (peek >>= q) s = q s.here s := rfl

@[simp] theorem advance_bind (q : Unit → Parser β) (s : State) :
    (advance >>= q) s = q () s.advanced := rfl

theorem accept_bind_of_eq {k : Kind} {s : State} (h : s.here.kind = k) (q : Bool → Parser β) :
    (accept k >>= q) s = q true s.advanced := by
  rw [bind_apply, accept, if_pos h]

theorem accept_bind_of_ne {k : Kind} {s : State} (h : s.here.kind ≠ k) (q : Bool → Parser β) :
    (accept k >>= q) s = q false s := by
  rw [bind_apply, accept, if_neg h]

/-- It looks at the next token before it reads it. -/
theorem accept_eq (k : Kind) :
    accept k = peek >>= fun t => if t.kind = k then advance >>= fun _ => pure true else pure false := by
  funext s
  simp only [peek_bind, accept]
  split <;> rfl

@[simp] theorem here_cons {s : State} {t : Token} {ts : List Token} (h : s.rest = t :: ts) :
    s.here = t := by
  rw [State.here, h]; rfl

theorem advanced_cons {s : State} {t : Token} {ts : List Token} (h : s.rest = t :: ts)
    (hk : t.kind ≠ .endOfInput) : s.advanced = { s with rest := ts, lastEnd := t.span.stop } := by
  unfold State.advanced
  rw [h]
  exact if_neg hk

theorem State.nodes_advanced (s : State) : s.advanced.nodes = s.nodes := by
  unfold advanced
  split <;> (try split) <;> rfl

theorem State.advanced_of_endOfInput {s : State} (h : s.here.kind = .endOfInput) :
    s.advanced = s := by
  unfold here at h
  unfold advanced
  cases hs : s.rest with
  | nil => rfl
  | cons t ts =>
    rw [hs] at h
    exact if_pos h

theorem rest_eq_here_cons {s : State} (h : s.here.kind ≠ .endOfInput) :
    s.rest = s.here :: s.advanced.rest := by
  unfold State.here State.advanced at *
  cases hs : s.rest with
  | nil => simp [hs] at h
  | cons t ts =>
    simp only [hs, List.head?_cons, Option.getD_some] at h ⊢
    rw [if_neg h]

def final : EStateM.Result SyntaxError State α → State
  | .ok _ t => t
  | .error _ t => t

def leaving (rest : List Token) :
    EStateM.Result SyntaxError State α → EStateM.Result SyntaxError State α
  | .ok a t => .ok a { t with rest := rest }
  | .error e t => .error e { t with rest := rest }

/-- The tokens `c` that are read and the token after them decide what happens. -/
def Local (p : Parser α) : Prop :=
  ∀ s, ∃ c, s.rest = c ++ (final (p s)).rest ∧
    ∀ rest, rest.head? = (final (p s)).rest.head? →
      p { s with rest := c ++ rest } = leaving rest (p s)

theorem Local.length_le {p : Parser α} (h : Local p) (s : State) :
    (final (p s)).rest.length ≤ s.rest.length := by
  obtain ⟨c, hc, -⟩ := h s
  rw [hc, List.length_append]
  omega

theorem here_withRest {s : State} {rest : List Token} (h : rest.head? = s.rest.head?) :
    ({ s with rest := rest } : State).here = s.here := by
  simp only [State.here, h]

/-- A step that can be repeated: it goes on only after it has read something. -/
structure Steady (step : α → Parser (Option α)) : Prop where
  keeps : ∀ a, Local (step a)
  progresses : Progresses (·.rest.length) step

namespace Steady

variable {step : α → Parser (Option α)} {a b : α} {s t : State} {e : SyntaxError}

theorem repeated_error (h : Steady step) (hs : step a s = .error e t) :
    repeated step a s = .error e t := by
  unfold repeated
  rw [untilDeclined_eq h.progresses, hs]

theorem repeated_none (h : Steady step) (hs : step a s = .ok none t) :
    repeated step a s = .ok a t := by
  unfold repeated
  rw [untilDeclined_eq h.progresses, hs]

theorem repeated_some (h : Steady step) (hs : step a s = .ok (some b) t) :
    repeated step a s = repeated step b t := by
  unfold repeated
  rw [untilDeclined_eq h.progresses, hs]

end Steady

namespace Local

theorem pure (a : α) : Local (Pure.pure a : Parser α) := fun _ => ⟨[], rfl, fun _ _ => rfl⟩

theorem bind {p : Parser α} {q : α → Parser β} (hp : Local p) (hq : ∀ a, Local (q a)) :
    Local (p >>= q) := by
  intro s
  obtain ⟨c, hc, hs⟩ := hp s
  rw [bind_apply]
  cases h : p s with
  | error e t =>
    rw [h] at hc hs
    refine ⟨c, hc, fun rest hr => ?_⟩
    rw [bind_apply, hs rest hr]
    rfl
  | ok a t =>
    rw [h] at hc hs
    obtain ⟨d, hd, ht⟩ := hq a t
    refine ⟨c ++ d, by rw [hc, final, hd, List.append_assoc], fun rest hr => ?_⟩
    have heads : (d ++ rest).head? = t.rest.head? := by rw [hd, List.head?_append,
      List.head?_append, hr]
    rw [bind_apply, List.append_assoc, hs (d ++ rest) heads]
    exact ht rest hr

theorem map {p : Parser α} (f : α → β) (hp : Local p) : Local (f <$> p) := by
  have : f <$> p = p >>= fun a => Pure.pure (f a) := rfl
  rw [this]
  exact hp.bind fun a => pure (f a)

theorem peek : Local peek := fun s => ⟨[], rfl, fun rest hr => by
  change rest.head? = s.rest.head? at hr
  simp only [Grammar.peek, leaving, List.nil_append, here_withRest hr]⟩

theorem advance : Local advance := by
  intro s
  by_cases h : s.here.kind = .endOfInput
  · have same : s.advanced = s := s.advanced_of_endOfInput h
    refine ⟨[], by simp only [Grammar.advance, final, same, List.nil_append], fun rest hr => ?_⟩
    simp only [Grammar.advance, final, same] at hr ⊢
    have stays := State.advanced_of_endOfInput (s := { s with rest := rest })
      (by rwa [here_withRest hr])
    simp only [leaving, List.nil_append, stays]
  · obtain ⟨ts, hs⟩ : ∃ ts, s.rest = s.here :: ts := ⟨_, rest_eq_here_cons h⟩
    refine ⟨[s.here], by rw [hs, show final (Grammar.advance s) = s.advanced from rfl,
      advanced_cons hs h]; rfl, fun rest _ => ?_⟩
    have other := advanced_cons (s := { s with rest := s.here :: rest }) rfl h
    simp only [Grammar.advance, leaving, List.cons_append, List.nil_append, other,
      advanced_cons hs h]

theorem accept (k : Kind) : Local (accept k) := by
  rw [accept_eq]
  refine peek.bind fun t => ?_
  split
  · exact advance.bind fun _ => pure true
  · exact pure false

theorem enter (shape : Shape NodeId) (start : Nat) : Local (enter shape start) :=
  fun _ => ⟨[], rfl, fun _ _ => rfl⟩

/-- An error may depend on the token that comes next. -/
theorem failWith {cause : State → Cause}
    (h : ∀ s rest, rest.head? = s.rest.head? → cause { s with rest := rest } = cause s) :
    Local (failWith cause : Parser α) :=
  fun s => ⟨[], rfl, fun rest hr => by
  change rest.head? = s.rest.head? at hr
  simp only [Grammar.failWith, leaving, List.nil_append, h s rest hr, here_withRest hr]⟩

theorem within {p : Parser α} (context : Context) (hp : Local p) : Local (within context p) := by
  intro s
  unfold Grammar.within
  cases hc : s.contexts.push? context with
  | none =>
    obtain ⟨c, hs, hr⟩ := @failWith α (fun _ => .nestedTooDeeply) (fun _ _ _ => rfl) s
    exact ⟨c, hs, fun rest hh => by simpa only [hc] using hr rest hh⟩
  | some contexts =>
    obtain ⟨c, hs, hr⟩ := hp { s with contexts := contexts }
    dsimp only at hs hr ⊢
    cases h : p { s with contexts := contexts } with
    | ok a t | error a t =>
      rw [h] at hs hr
      exact ⟨c, hs, fun rest hh => by simp only [hc, hr rest hh, leaving]⟩

/-- Repeating keeps within the steps, and each step starts where the one before ended. -/
theorem repeated {step : α → Parser (Option α)} (h : Steady step) (a : α) :
    Local (repeated step a) := by
  intro s
  induction hn : s.rest.length using Nat.strongRecOn generalizing a s with
  | ind n ih =>
    obtain ⟨c, hc, hs⟩ := h.keeps a s
    cases hr : step a s with
    | error e t =>
      rw [hr] at hc hs
      rw [h.repeated_error hr]
      exact ⟨c, hc, fun rest hh => h.repeated_error (hs rest hh)⟩
    | ok o t =>
      rw [hr] at hc hs
      cases o with
      | none =>
        rw [h.repeated_none hr]
        exact ⟨c, hc, fun rest hh => h.repeated_none (hs rest hh)⟩
      | some b =>
        have shorter : t.rest.length < s.rest.length := h.progresses a s b t hr
        obtain ⟨d, hd, ht⟩ := ih t.rest.length (by omega) b t rfl
        rw [h.repeated_some hr]
        refine ⟨c ++ d, by rw [hc, final, hd, List.append_assoc], fun rest hh => ?_⟩
        have heads : (d ++ rest).head? = t.rest.head? := by rw [hd, List.head?_append,
          List.head?_append, hh]
        rw [List.append_assoc, h.repeated_some (hs (d ++ rest) heads)]
        exact ht rest hh

end Local

/-- A step that begins by reading a certain token goes on only where that token is. -/
theorem steady_accept {k : Kind} (hk : k ≠ .endOfInput) {body : α → Parser (Option α)}
    (hb : ∀ a, Local (body a)) :
    Steady fun a => accept k >>= fun b => if b then body a else pure none := by
  constructor
  case keeps =>
    intro a
    refine (Local.accept k).bind fun found => ?_
    split
    · exact hb a
    · exact .pure _
  case progresses =>
    intro a s b t h
    dsimp only at h ⊢
    by_cases hs : s.here.kind = k
    · rw [accept_bind_of_eq hs, if_pos rfl] at h
      have reads := rest_eq_here_cons (hs ▸ hk)
      have := (hb a).length_le s.advanced
      rw [h] at this
      rw [reads, List.length_cons]
      exact Nat.lt_succ_of_le this
    · rw [accept_bind_of_ne hs] at h
      cases h

section rules

variable {nested : Context → Rule → Parser NodeId}

theorem unexpected_withRest (s : State) (rest : List Token) (h : rest.head? = s.rest.head?) :
    unexpected { s with rest := rest } = unexpected s := by
  simp only [unexpected, here_withRest h]

theorem local_primary (hn : ∀ c r, Local (nested c r)) : Local (primary nested) := by
  refine Local.peek.bind fun t => ?_
  split
  · refine Local.advance.bind fun _ => (hn _ _).bind fun content =>
      (Local.accept _).bind fun closed => ?_
    split
    · exact .enter _ _
    · exact .failWith fun s rest h => by rw [here_withRest h]
  · exact Local.advance.bind fun _ => .enter _ _
  · exact Local.advance.bind fun _ => .enter _ _
  · exact Local.advance.bind fun _ => .enter _ _
  · exact Local.advance.bind fun _ => .enter _ _
  · exact .failWith unexpected_withRest

theorem local_reference (hn : ∀ c r, Local (nested c r)) : Local (reference nested) := by
  refine Local.peek.bind fun t => ?_
  split
  · refine Local.advance.bind fun _ => Local.peek.bind fun next => ?_
    split
    · exact (Local.map _ (hn _ _)).bind fun _ => .enter _ _
    · exact (Local.pure _).bind fun _ => .enter _ _
  · exact local_primary hn

theorem steady_whoseStep (hn : ∀ c r, Local (nested c r)) (start : Nat) :
    Steady (whoseStep nested start) :=
  steady_accept (by decide) fun _ => (hn _ _).bind fun _ => .map _ (.enter _ _)

theorem local_selection (hn : ∀ c r, Local (nested c r)) : Local (selection nested) :=
  Local.peek.bind fun _ => (local_reference hn).bind fun _ => .repeated (steady_whoseStep hn _) _

theorem steady_arrowStep (hn : ∀ c r, Local (nested c r)) (start : Nat) :
    Steady (arrowStep nested start) := by
  refine steady_accept (by decide) fun source => Local.peek.bind fun t => ?_
  split
  · exact Local.advance.bind fun _ => .map _ (.enter _ _)
  · exact Local.advance.bind fun _ => .map _ (.enter _ _)
  · exact (hn _ _).bind fun _ => .map _ (.enter _ _)

theorem local_property (hn : ∀ c r, Local (nested c r)) : Local (property nested) := by
  have arrows (start : Nat) (chosen : NodeId) : Local (repeated (arrowStep nested start) chosen) :=
    .repeated (steady_arrowStep hn start) chosen
  refine Local.peek.bind fun t => (Local.accept _).bind fun its => ?_
  split
  · exact (Local.enter _ _).bind fun it => (hn _ _).bind fun accessor =>
      (Local.enter _ _).bind fun chosen => arrows _ _
  · refine (local_selection hn).bind fun chosen => (Local.accept _).bind fun found => ?_
    split
    · exact (hn _ _).bind fun source => .enter _ _
    · exact arrows _ _

theorem steady_castStep (start : Nat) : Steady (castStep start) := by
  refine steady_accept (by decide) fun source => Local.peek.bind fun t => ?_
  split
  · exact Local.advance.bind fun _ => .map _ (.enter _ _)
  · exact .failWith fun s rest h => by rw [here_withRest h]

theorem local_cast (hn : ∀ c r, Local (nested c r)) : Local (cast nested) :=
  Local.peek.bind fun _ => (local_property hn).bind fun _ => .repeated (steady_castStep _) _

theorem local_operand (hn : ∀ c r, Local (nested c r)) (r : Rule) : Local (operand nested r) := by
  refine Local.peek.bind fun t => ?_
  split
  · exact .failWith fun _ _ _ => rfl
  · exact hn _ _

theorem local_unary (hn : ∀ c r, Local (nested c r)) : Local (unary nested) := by
  refine Local.peek.bind fun t => ?_
  split
  · exact Local.advance.bind fun _ => (local_operand hn _).bind fun _ => .enter _ _
  · exact local_cast hn

theorem steady_chainStep (hn : ∀ c r, Local (nested c r)) {infixOf? : Kind → Option InfixOperator}
    (he : infixOf? .endOfInput = none) (right : Rule) (start : Nat) :
    Steady (chainStep nested infixOf? right start) := by
  have rightPart (o : InfixOperator) (left : NodeId) :
      Local (operand nested right >>= fun inner => some <$> enter (.binary o left inner) start) :=
    (local_operand hn _).bind fun _ => .map _ (.enter _ _)
  constructor
  case keeps =>
    refine fun left => Local.peek.bind fun t => ?_
    split
    · exact Local.advance.bind fun _ => rightPart _ left
    · exact .pure _
  case progresses =>
    intro left s b t h
    rw [chainStep, peek_bind] at h
    cases ho : infixOf? s.here.kind with
    | none => rw [ho] at h; cases h
    | some o =>
      rw [ho] at h
      have hs : s.here.kind ≠ .endOfInput := fun hs => by rw [hs, he] at ho; cases ho
      have := (rightPart o left).length_le s.advanced
      simp only [advance_bind] at h
      rw [h] at this
      simp only [rest_eq_here_cons hs, List.length_cons]
      exact Nat.lt_succ_of_le this

theorem local_chain (hn : ∀ c r, Local (nested c r)) (infixOf? : Kind → Option InfixOperator)
    (he : infixOf? .endOfInput = none) {first : Parser NodeId} (hf : Local first) (right : Rule) :
    Local (chain nested infixOf? first right) :=
  Local.peek.bind fun _ => hf.bind fun _ => .repeated (steady_chainStep hn he right _) _

theorem local_relation (hn : ∀ c r, Local (nested c r)) (hs : Local (sum nested)) :
    Local (relation nested) := by
  refine Local.peek.bind fun t => hs.bind fun left => Local.peek.bind fun op => ?_
  split
  · refine Local.advance.bind fun _ => (local_operand hn _).bind fun right =>
      Local.peek.bind fun next => ?_
    split
    · exact .failWith fun _ _ _ => rfl
    · exact .enter _ _
  · exact .pure _

theorem steady_itemStep (hn : ∀ c r, Local (nested c r)) {separator : Kind}
    (hs : separator ≠ .endOfInput) (item : Rule) : Steady (itemStep nested separator item) :=
  steady_accept hs fun _ => (hn _ _).bind fun _ => .pure _

theorem local_separated (hn : ∀ c r, Local (nested c r)) (separator : Kind)
    (hs : separator ≠ .endOfInput) (make : List NodeId → Shape NodeId) {first : Parser NodeId}
    (hf : Local first) (item : Rule) : Local (separated nested separator make first item) := by
  refine Local.peek.bind fun t => hf.bind fun one => Local.peek.bind fun next => ?_
  split
  · exact (Local.repeated (steady_itemStep hn hs item) _).bind fun _ => .enter _ _
  · exact .pure _

theorem local_expression (hn : ∀ c r, Local (nested c r)) (hc : Local (collection nested)) :
    Local (expression nested) := by
  refine Local.peek.bind fun t => ?_
  split
  · refine Local.advance.bind fun _ => (hn _ _).bind fun condition =>
      (Local.accept _).bind fun found => ?_
    split
    · refine (hn _ _).bind fun thenBranch => (Local.accept _).bind fun found => ?_
      split
      · exact (hn _ _).bind fun elseBranch => .enter _ _
      · exact .failWith fun s rest h => by rw [here_withRest h]
    · exact .failWith fun s rest h => by rw [here_withRest h]
  · exact hc

theorem local_apply (hn : ∀ c r, Local (nested c r)) (r : Rule) : Local (apply nested r) := by
  induction r using Rule.level_induction with
  | primary => exact local_primary hn
  | looser r above ih =>
    cases r with
    | primary => exact absurd rfl above
    | reference => exact local_reference hn
    | selection => exact local_selection hn
    | property => exact local_property hn
    | cast => exact local_cast hn
    | unary => exact local_unary hn
    | product | sum | conjunction | disjunction => exact local_chain hn _ rfl ih _
    | relation => exact local_relation hn ih
    | tuple | collection => exact local_separated hn _ (by decide) _ ih _
    | expression => exact local_expression hn ih

end rules

theorem local_nestedIn (room : Nat) (context : Context) (r : Rule) :
    Local (nestedIn room context r) := by
  induction room generalizing context r with
  | zero => exact .failWith fun _ _ _ => rfl
  | succ room ih => exact .within context (local_apply ih r)

theorem local_run (r : Rule) : Local (run r) :=
  fun s => local_apply (local_nestedIn s.contexts.room) r s

theorem local_whole : Local whole := by
  refine (local_run .expression).bind fun root => Local.peek.bind fun t => ?_
  split
  · exact .pure _
  · exact .failWith unexpected_withRest

end InventoryQuery.Grammar
