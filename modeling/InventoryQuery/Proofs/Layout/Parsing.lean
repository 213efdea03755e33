import InventoryQuery.Grammar.Compile
import InventoryQuery.Proofs.Layout.Tokens
import InventoryQuery.Proofs.Tree.Scope

/-! Two runs of the grammar in step, on tokens that it cannot tell from one another. The places of the
tokens go into the places of nodes and of errors only, so the runs enter the same forms at the same
heights, and where the one fails the other fails for the same reason. -/

namespace InventoryQuery

namespace Grammar

variable {α β : Type}

/-- The states differ in places only. -/
structure State.Akin (s t : State) : Prop where
  rest : s.rest.map Token.sense = t.rest.map Token.sense
  shapes : Tree.shapes s.nodes = Tree.shapes t.nodes
  heights : s.heights = t.heights
  tooHigh : s.tooHigh.isSome = t.tooHigh.isSome
  contexts : s.contexts = t.contexts

namespace State.Akin

variable {s t : State}

theorem here (h : s.Akin t) : s.here.sense = t.here.sense := by
  have rest := congrArg List.head? h.rest
  rw [List.head?_map, List.head?_map] at rest
  unfold State.here
  cases hs : s.rest.head? <;> cases ht : t.rest.head? <;> rw [hs, ht] at rest
  · rfl
  · cases rest
  · cases rest
  · exact Option.some.inj rest

theorem here_kind (h : s.Akin t) : s.here.kind = t.here.kind := congrArg Prod.fst h.here

theorem size (h : s.Akin t) : s.nodes.size = t.nodes.size := by
  have := congrArg Array.size h.shapes
  simpa [Tree.shapes] using this

theorem advanced (h : s.Akin t) : s.advanced.Akin t.advanced := by
  by_cases eof : s.here.kind = .endOfInput
  · rw [State.advanced_of_endOfInput eof, State.advanced_of_endOfInput (h.here_kind ▸ eof)]
    exact h
  · have hs := rest_eq_here_cons eof
    have ht := rest_eq_here_cons (h.here_kind ▸ eof)
    have rest := h.rest
    rw [hs, ht, List.map_cons, List.map_cons] at rest
    have other (u : State) : u.advanced.heights = u.heights ∧ u.advanced.tooHigh = u.tooHigh ∧
        u.advanced.contexts = u.contexts := by
      unfold State.advanced
      split <;> (try split) <;> exact ⟨rfl, rfl, rfl⟩
    obtain ⟨heights, tooHigh, contexts⟩ := other s
    obtain ⟨heights', tooHigh', contexts'⟩ := other t
    exact ⟨(List.cons_eq_cons.1 rest).2, by rw [s.nodes_advanced, t.nodes_advanced, h.shapes],
      by rw [heights, heights', h.heights], by rw [tooHigh, tooHigh', h.tooHigh],
      by rw [contexts, contexts', h.contexts]⟩

theorem entered (h : s.Akin t) (shape : Shape NodeId) (start start' : Nat) :
    (s.entered shape start).Akin (t.entered shape start') := by
  have height : s.heightOf shape = t.heightOf shape := by rw [State.heightOf, State.heightOf, h.heights]
  refine ⟨h.rest, ?_, ?_, ?_, h.contexts⟩
  · have shapes := h.shapes
    simp only [State.entered, Tree.shapes, Array.map_push] at shapes ⊢
    rw [shapes]
  · simp only [State.entered, h.heights, height]
  · have low : s.tooHigh.isNone = t.tooHigh.isNone := by
      rw [← Option.not_isSome, ← Option.not_isSome, h.tooHigh]
    simp only [State.entered, height, low]
    split
    · rfl
    · exact h.tooHigh

end State.Akin

/-- Both succeed alike, or both fail for the same reason. -/
def Together : EStateM.Result SyntaxError State α → EStateM.Result SyntaxError State α → Prop
  | .ok a s, .ok b t => a = b ∧ s.Akin t
  | .error e _, .error e' _ => e.code = e'.code
  | _, _ => False

def InStep (p q : Parser α) : Prop := ∀ s t, s.Akin t → Together (p s) (q t)

/-- The cause depends on the kind of the token and on the character that is to blame. -/
theorem code_unexpected (s t : State) (h : s.Akin t) : (unexpected s).code = (unexpected t).code := by
  have same := h.here
  unfold unexpected
  generalize s.here = a at same ⊢
  generalize t.here = b at same ⊢
  obtain ⟨kind, text, start⟩ := a
  obtain ⟨kind', text', start'⟩ := b
  obtain rfl : kind = kind' := congrArg Prod.fst same
  cases kind with
  | invalid =>
    have heads : text.take 1 = text'.take 1 := String.ofList_injective (congrArg Prod.snd same)
    cases text with
    | nil =>
      cases text' with
      | nil => rfl
      | cons => cases heads
    | cons c text =>
      cases text' with
      | nil => cases heads
      | cons d text' =>
        obtain ⟨rfl, -⟩ := List.cons_eq_cons.1 heads
        by_cases quote : c = '"'
        · subst quote
          rfl
        by_cases sign : c = '$'
        · subst sign
          rfl
        simp [quote, sign, Cause.code]
  | _ => rfl

namespace InStep

theorem bind {p p' : Parser α} {q q' : α → Parser β} (hp : InStep p p')
    (hq : ∀ a, InStep (q a) (q' a)) : InStep (p >>= q) (p' >>= q') := by
  intro s t h
  have first := hp s t h
  rw [bind_apply, bind_apply]
  cases hs : p s with
  | ok a u =>
    cases ht : p' t with
    | ok b v =>
      rw [hs, ht] at first
      obtain ⟨rfl, akin⟩ := first
      exact hq a u v akin
    | error => rw [hs, ht] at first; exact first.elim
  | error e u =>
    cases ht : p' t with
    | ok => rw [hs, ht] at first; exact first.elim
    | error => rw [hs, ht] at first; exact first

theorem within {p p' : Parser α} (context : Context) (hp : InStep p p') :
    InStep (within context p) (within context p') := by
  intro s t h
  unfold Grammar.within
  rw [h.contexts]
  cases t.contexts.push? context with
  | none => exact rfl
  | some contexts =>
    have inner := hp { s with contexts := contexts } { t with contexts := contexts }
      ⟨h.rest, h.shapes, h.heights, h.tooHigh, rfl⟩
    dsimp only
    cases hs : p { s with contexts := contexts } with
    | ok a u =>
      cases ht : p' { t with contexts := contexts } with
      | ok b v =>
        rw [hs, ht] at inner
        obtain ⟨same, akin⟩ := inner
        exact ⟨same, akin.rest, akin.shapes, akin.heights, akin.tooHigh, by rw [akin.contexts]⟩
      | error => rw [hs, ht] at inner; exact inner.elim
    | error e u =>
      cases ht : p' { t with contexts := contexts } with
      | ok => rw [hs, ht] at inner; exact inner.elim
      | error => rw [hs, ht] at inner; exact inner

/-- Where a token starts goes into places only. -/
theorem lockstep : Lockstep (fun t u => t.sense = u.sense) InStep where
  sense := id
  pure _ := fun _ _ h => ⟨rfl, h⟩
  bind := bind
  peek hq := fun s t h => hq s.here t.here h.here s t h
  advance := fun _ _ h => ⟨rfl, h.advanced⟩
  enter shape _ _ _ := fun _ _ h => ⟨h.size, h.entered shape _ _⟩
  unexpected := code_unexpected
  failWith _ _ _ code _ := fun s t _ => code _ _ s t
  bounded hp := by
    intro s t h
    have length : s.rest.length = t.rest.length := by
      rw [← List.length_map Token.sense, h.rest, List.length_map]
    dsimp only
    rw [length]
    exact hp _ s t h

end InStep

theorem inStep_nestedIn (room : Nat) (context : Context) (r : Rule) :
    InStep (nestedIn room context r) (nestedIn room context r) := by
  induction room generalizing context r with
  | zero => exact fun _ _ _ => rfl
  | succ room ih => exact .within context (lockstep_apply InStep.lockstep ih r)

theorem inStep_whole : InStep whole whole := by
  have run : InStep (run .expression) (run .expression) := by
    intro s t h
    unfold Grammar.run
    rw [h.contexts]
    exact lockstep_apply InStep.lockstep (inStep_nestedIn _) .expression s t h
  refine run.bind fun root => InStep.lockstep.look fun kind _ _ _ _ _ => ?_
  dsimp only
  split
  · exact InStep.lockstep.pure root
  · exact InStep.lockstep.unexpected

end Grammar

open Grammar

/-- What is left of a result without its places: the expression, or the code of the error. -/
def outcome : Except SyntaxError Tree → Except Code Expr
  | .ok t => .ok t.rootExpr
  | .error e => .error e.code

/-- Tokens that the grammar cannot tell apart have the same outcome. -/
theorem outcome_parseTokens {ts us : List Token} (h : ts.map Token.sense = us.map Token.sense) :
    outcome (parseTokens ts) = outcome (parseTokens us) := by
  have run := inStep_whole (.initial ts) (.initial us) ⟨h, rfl, rfl, rfl, rfl⟩
  unfold parseTokens
  generalize whole (.initial ts) = r at run ⊢
  generalize whole (.initial us) = r' at run ⊢
  cases r with
  | error e s =>
    cases r' with
    | ok => exact run.elim
    | error e' t => exact congrArg Except.error run
  | ok root s =>
    cases r' with
    | error => exact run.elim
    | ok root' t =>
      obtain ⟨rfl, akin⟩ := run
      have high := akin.tooHigh
      cases hs : s.tooHigh with
      | some span =>
        obtain ⟨span', ht⟩ := Option.isSome_iff_exists.1 (high.symm.trans (by rw [hs]; rfl))
        simp only [hs, ht]
        rfl
      | none =>
        have ht : t.tooHigh = none := by
          rw [hs] at high
          simpa using high
        simp only [hs, ht]
        exact congrArg Except.ok (Tree.result_congr (fun _ s => Expr.node s) akin.shapes root)

end InventoryQuery
