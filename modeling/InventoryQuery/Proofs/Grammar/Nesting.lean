import InventoryQuery.Proofs.Grammar.Lockstep
import InventoryQuery.Proofs.Grammar.Upkeep

/-! Rules inside rules. A rule calls on another one only with the contexts open that it was given, and
opens one more for it. So the recursion is the one that the rules describe, and the room on the stack
of contexts, not a number of steps, is what bounds it. -/

namespace InventoryQuery.Grammar

namespace ContextStack

variable {k opened : ContextStack} {context : Context}

theorem push?_eq_none_iff : k.push? context = none ↔ k.room = 0 := by
  unfold push? room
  split
  · simp only [reduceCtorEq, false_iff]
    omega
  · simp only [true_iff]
    omega

theorem entries_push? (h : k.push? context = some opened) : opened.entries = context :: k.entries := by
  unfold push? at h
  split at h
  · cases h
    rfl
  · cases h

theorem room_push? (h : k.push? context = some opened) : k.room = opened.room + 1 := by
  have bounded := opened.bounded
  unfold room
  rw [entries_push? h, List.length_cons] at *
  omega

end ContextStack

variable {α β : Type}

/-- With these contexts open the two do the same, and they leave them open. -/
def AgreeAt (k : ContextStack) (p q : Parser α) : Prop :=
  ∀ s, s.contexts = k → p s = q s ∧ (final (p s)).contexts = k

namespace AgreeAt

variable {k : ContextStack}

theorem of_keeps {p : Parser α} (h : ∀ s, (final (p s)).contexts = s.contexts) : AgreeAt k p p :=
  fun s hs => ⟨rfl, (h s).trans hs⟩

theorem bind {p p' : Parser α} {q q' : α → Parser β} (hp : AgreeAt k p p') (hq : ∀ a, AgreeAt k (q a) (q' a)) :
    AgreeAt k (p >>= q) (p' >>= q') := by
  intro s hs
  obtain ⟨same, kept⟩ := hp s hs
  rw [bind_apply, bind_apply, ← same]
  cases hr : p s with
  | ok a t =>
    rw [hr] at kept
    exact hq a t kept
  | error e t =>
    rw [hr] at kept
    exact ⟨rfl, kept⟩

/-- The same tokens are read, and no step opens a context or closes one. -/
theorem lockstep : Lockstep Eq (AgreeAt k) where
  sense := by rintro t _ rfl; rfl
  pure _ := of_keeps fun _ => rfl
  bind := bind
  peek hq := fun s hs => hq s.here s.here rfl s hs
  advance := of_keeps fun s => (Kept.advanced s).contexts
  enter := by rintro shape t _ rfl; exact of_keeps fun _ => rfl
  unexpected := of_keeps fun _ => rfl
  failWith := by rintro _ cause t _ - rfl; exact of_keeps fun _ => rfl
  bounded hp := fun s hs => hp _ s hs

end AgreeAt

/-- What a rule calls on: another rule, in a context of its own. -/
def recur (context : Context) (r : Rule) : Parser NodeId := within context (run r)

/-- With all contexts open a rule is refused before it reads anything. -/
theorem recur_of_full {s : State} (full : s.contexts.room = 0) (context : Context) (r : Rule) :
    recur context r s = .error ⟨.nestedTooDeeply, s.here.span⟩ s := by
  rw [recur, within, ContextStack.push?_eq_none_iff.2 full]
  rfl

/-- The room that is given is the room that there is. -/
theorem nestedIn_room (context : Context) (r : Rule) (s : State) :
    nestedIn s.contexts.room context r s = recur context r s := by
  cases opened : s.contexts.push? context with
  | none =>
    have full := ContextStack.push?_eq_none_iff.1 opened
    rw [recur_of_full full, full]
    rfl
  | some contexts =>
    rw [ContextStack.room_push? opened, nestedIn, recur, within, within, opened]
    rfl

theorem kept_recur (context : Context) (r : Rule) (s : State) : Kept s (final (recur context r s)) :=
  ((runs_run r).within context).kept s

/-- A rule runs as it is written, and the rules that it calls on do so in turn. -/
theorem run_eq (r : Rule) (s : State) : run r s = apply recur r s := by
  have same (context : Context) (r : Rule) : AgreeAt s.contexts (nestedIn s.contexts.room context r) (recur context r) := by
    intro u hu
    rw [← hu, nestedIn_room]
    exact ⟨rfl, (kept_recur context r u).contexts⟩
  exact (lockstep_apply AgreeAt.lockstep same r s rfl).1

/-- The rule starts another one at `u`: what becomes of `s` depends on what that one makes of `u`. -/
def Starts (r : Rule) (s : State) (context : Context) (r' : Rule) (u : State) : Prop :=
  ∃ other : Context → Rule → Parser NodeId,
    (∀ c q v, (c, q, v) ≠ (context, r', u) → other c q v = recur c q v) ∧ apply other r s ≠ run r s

/-- The contexts that are open at some time of a run. -/
inductive During : Rule → State → ContextStack → Prop
  | itself {r : Rule} {s : State} : During r s s.contexts
  | nested {r r' : Rule} {s u : State} {context : Context} {opened k : ContextStack} : Starts r s context r' u →
    u.contexts.push? context = some opened → During r' { u with contexts := opened } k → During r s k

section during

variable {r r' : Rule} {s u : State} {context : Context} {k : ContextStack}

/-- A rule that passes an error on has started the one that it comes from. -/
theorem Starts.of_error (h : ∀ other : Context → Rule → Parser NodeId, ∀ e,
    other context r' u = .error e u → ∃ t, apply other r s = .error e t) : Starts r s context r' u := by
  classical
  let failing (e : SyntaxError) (c : Context) (q : Rule) : Parser NodeId := fun v =>
    if (c, q, v) = (context, r', u) then .error e u else recur c q v
  have raised (e : SyntaxError) : failing e context r' u = .error e u := if_pos rfl
  by_contra never
  -- whatever the error is, it would be the result of the run
  have always (e : SyntaxError) : ∃ t, run r s = .error e t := by
    obtain ⟨t, passed⟩ := h (failing e) e (raised e)
    have same : apply (failing e) r s = run r s := by
      by_contra differs
      exact never ⟨failing e, fun c q v apart => if_neg apart, differs⟩
    exact ⟨t, same.symm.trans passed⟩
  obtain ⟨t, first⟩ := always ⟨.nestedTooDeeply, s.here.span⟩
  obtain ⟨t', second⟩ := always ⟨.missingOperand, s.here.span⟩
  rw [first] at second
  cases second

/-- The content of parentheses is a rule in a context of its own. -/
theorem starts_content (h : s.here.kind = .leftParen) : Starts .primary s .parenthesized .expression s.advanced := by
  refine .of_error fun other e raised => ⟨s.advanced, ?_⟩
  simp only [apply, primary, peek_bind, h, advance_bind]
  rw [bind_apply, raised]

/-- Another rule is started with the contexts that are open. -/
theorem Starts.contexts (h : Starts r s context r' u) : u.contexts = s.contexts := by
  obtain ⟨other, same, differs⟩ := h
  by_contra apart
  -- with other contexts open nothing else is called on, so the run would be the same
  have agree (c : Context) (q : Rule) : AgreeAt s.contexts (other c q) (recur c q) := by
    intro v hv
    have equal : other c q v = recur c q v := same c q v (by rintro ⟨⟩; exact apart hv)
    rw [equal]
    exact ⟨rfl, (kept_recur c q v).contexts.trans hv⟩
  exact differs ((lockstep_apply AgreeAt.lockstep agree r s rfl).1.trans (run_eq r s).symm)

theorem During.suffix (h : During r s k) : s.contexts.entries <:+ k.entries := by
  induction h with
  | itself => exact List.suffix_refl _
  | nested starts opens _ ih =>
    rw [ContextStack.entries_push? opens, starts.contexts] at ih
    exact (List.suffix_cons _ _).trans ih

end during

theorem makes_run {r : Rule} {s t : State} {id : NodeId} (h : run r s = .ok id t) : Makes s id t := by
  have known := runs_run r s
  unfold Yields at known
  rwa [h] at known

/-- Whatever a rule is run on and whether it succeeds or fails, the contexts are those that were open,
and meanwhile only more of them, within the bound; it reads on and not past the end of the input; the
table grows behind the nodes that are there, and its heights with it. If it succeeds, it has read
something, and the node is the last one that it entered. -/
theorem upkeep_of_rule (r : Rule) (s : State) (eof : Token) (ends : s.rest.getLast? = some eof)
    (isEnd : eof.kind = .endOfInput) (parallel : s.heights.size = s.nodes.size) :
    let t := final (run r s)
    t.contexts = s.contexts ∧
    (∀ k, During r s k → s.contexts.entries <:+ k.entries ∧ k.entries.length ≤ maxNesting + 1) ∧
    (∃ read, s.rest = read ++ t.rest ∧ ∀ x ∈ read, x.kind ≠ .endOfInput) ∧ t.rest.getLast? = some eof ∧
    s.nodes.toList <+: t.nodes.toList ∧ s.heights.toList <+: t.heights.toList ∧ t.heights.size = t.nodes.size ∧
    ∀ id u, run r s = .ok id u → u.rest.length < s.rest.length ∧ s.nodes.size ≤ id ∧ id + 1 = u.nodes.size := by
  intro t
  have kept : Kept s t := (runs_run r).kept s
  obtain ⟨read, between⟩ := kept.tokens
  refine ⟨kept.contexts, fun k during => ⟨during.suffix, k.bounded⟩, ⟨read, between⟩, between.getLast? ends isEnd,
    kept.nodes, kept.heights, kept.parallel parallel, fun id u done => ?_⟩
  have made := makes_run done
  exact ⟨made.reads.takes (by simp), made.reads.last⟩

/-- A marker in parentheses, behind a marker that was read before. -/
theorem upkeep_of_rule_parens :
    let eof : Token := ⟨.endOfInput, [], 6⟩
    let s : State := { State.initial [⟨.leftParen, ['('], 3⟩, ⟨.question, ['?'], 4⟩, ⟨.rightParen, [')'], 5⟩, eof] with
      nodes := #[⟨.marker, ⟨0, 1⟩, none, false⟩], heights := #[1], lastEnd := 2 }
    let t := final (run .primary s)
    let inner : ContextStack := ⟨[.parenthesized, .topLevel], by decide⟩
    s.rest.getLast? = some eof ∧ eof.kind = .endOfInput ∧ s.heights.size = s.nodes.size ∧ During .primary s inner ∧
      run .primary s = .ok 2 t ∧
      t.contexts = s.contexts ∧ s.contexts.entries <:+ inner.entries ∧ inner.entries.length ≤ maxNesting + 1 ∧
      (∃ read, s.rest = read ++ t.rest ∧ ∀ x ∈ read, x.kind ≠ .endOfInput) ∧ t.rest.getLast? = some eof ∧
      s.nodes.toList <+: t.nodes.toList ∧ s.heights.toList <+: t.heights.toList ∧ t.heights.size = t.nodes.size ∧
      t.rest.length < s.rest.length ∧ s.nodes.size ≤ 2 ∧ 2 + 1 = t.nodes.size := by
  intro eof s t inner
  have during : During .primary s inner := .nested (starts_content rfl) rfl .itself
  have done : run .primary s = .ok 2 t := rfl
  obtain ⟨contexts, meanwhile, read, last, nodes, heights, parallel, made⟩ := upkeep_of_rule .primary s eof rfl rfl rfl
  exact ⟨rfl, rfl, rfl, during, done, contexts, (meanwhile inner during).1, (meanwhile inner during).2, read, last, nodes,
    heights, parallel, made 2 t done⟩

end InventoryQuery.Grammar
