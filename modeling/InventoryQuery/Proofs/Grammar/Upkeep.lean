import InventoryQuery.Proofs.Grammar.Course

/-! What a run keeps of the state that it finds, whether it succeeds or fails. The contexts are those
that were open, no token is read twice or past the end, and the table only grows, its heights along
with it. Each move keeps this, so by induction on the moves every rule does. -/

namespace InventoryQuery.Grammar

variable {α : Type} {s t u : State}

/-- From one state to the other, contexts are closed as they were opened, tokens are read in order, and
nodes are entered behind those that are there. -/
structure Kept (s t : State) : Prop where
  contexts : t.contexts = s.contexts
  tokens : ∃ ts, Between s ts t
  nodes : s.nodes.toList <+: t.nodes.toList
  heights : s.heights.toList <+: t.heights.toList
  parallel : s.heights.size = s.nodes.size → t.heights.size = t.nodes.size

namespace Kept

theorem refl (s : State) : Kept s s := ⟨rfl, ⟨[], .nothing⟩, List.prefix_refl _, List.prefix_refl _, id⟩

theorem trans (h : Kept s t) (h' : Kept t u) : Kept s u := by
  obtain ⟨ts, first⟩ := h.tokens
  obtain ⟨us, later⟩ := h'.tokens
  exact ⟨h'.contexts.trans h.contexts, ⟨_, first.trans later⟩, h.nodes.trans h'.nodes, h.heights.trans h'.heights,
    fun same => h'.parallel (h.parallel same)⟩

theorem advanced (s : State) : Kept s s.advanced := by
  by_cases last : s.here.kind = .endOfInput
  · rw [State.advanced_of_endOfInput last]
    exact refl s
  · have token : Between s [s.here] s.advanced := .one last
    rw [advanced_cons (rest_eq_here_cons last) last] at token ⊢
    exact ⟨rfl, ⟨_, token⟩, List.prefix_refl _, List.prefix_refl _, id⟩

theorem entered (s : State) (shape : Shape NodeId) (start : Nat) : Kept s (s.entered shape start) := by
  refine ⟨rfl, ⟨[], .nothing⟩, ?_, ?_, fun same => ?_⟩
  · rw [State.entered, Array.toList_push]
    exact List.prefix_append _ _
  · rw [State.entered, Array.toList_push]
    exact List.prefix_append _ _
  · rw [State.entered, Array.size_push, Array.size_push, same]

/-- The context that is opened is the one that is closed. -/
theorem within {context : Context} {contexts : ContextStack} (opened : s.contexts.push? context = some contexts)
    (h : Kept { s with contexts := contexts } t) : Kept s { t with contexts := t.contexts.pop } where
  contexts := by
    rw [h.contexts]
    exact ContextStack.pop_push? opened
  tokens := h.tokens
  nodes := h.nodes
  heights := h.heights
  parallel := h.parallel

end Kept

theorem Reads.kept {ids : List NodeId} (h : Reads s ids t) : Kept s t := by
  induction h with
  | nothing => exact .refl _
  | append _ _ ih ih' => exact ih.trans ih'
  | link => exact .advanced _
  | leaf => exact (Kept.advanced _).trans (.entered _ _ _)
  | enclosed _ _ _ ih => exact (Kept.advanced _).trans (ih.trans (.advanced _))
  | entered _ _ _ ih => exact ih.trans (.entered _ _ _)
  | within opened _ ih => exact ih.within opened

theorem Fails.kept {e : SyntaxError} (h : Fails s e t) : Kept s t := by
  induction h with
  | unexpected | refused => exact .refl _
  | unclosed _ read _ => exact (Kept.advanced _).trans read.kept
  | after read _ ih => exact read.kept.trans ih
  | enclosed _ _ ih => exact (Kept.advanced _).trans ih
  | within opened _ ih => exact ih.within opened

theorem Runs.kept {p : Parser NodeId} (h : Runs p) (s : State) : Kept s (final (p s)) := by
  have known := h s
  unfold Yields at known
  cases hp : p s <;> rw [hp] at known
  · exact known.reads.kept
  · exact known.kept

theorem Kept.length_rest_le (h : Kept s t) : t.rest.length ≤ s.rest.length := by
  obtain ⟨ts, all, -⟩ := h.tokens
  rw [all, List.length_append]
  omega

theorem Kept.size_nodes_le (h : Kept s t) : s.nodes.size ≤ t.nodes.size := h.nodes.length_le

/-- The end of the input is not read, so it stays the last token. -/
theorem Between.getLast? {ts : List Token} {eof : Token} (h : Between s ts t) (ends : s.rest.getLast? = some eof)
    (isEnd : eof.kind = .endOfInput) : t.rest.getLast? = some eof := by
  rw [h.1, List.getLast?_append] at ends
  cases last : t.rest.getLast? with
  | some x => rwa [last] at ends
  | none =>
    rw [last, Option.none_or] at ends
    exact absurd isEnd (h.2 eof (List.mem_of_getLast? ends))

theorem length_rest_advanced (h : s.here.kind ≠ .endOfInput) : s.advanced.rest.length < s.rest.length := by
  rw [rest_eq_here_cons h, List.length_cons]
  exact Nat.lt_succ_self _

/-- Every part takes a token. -/
theorem Reads.takes {ids : List NodeId} (h : Reads s ids t) (filled : ids ≠ []) : t.rest.length < s.rest.length := by
  induction h with
  | nothing | link => exact absurd rfl filled
  | @append s t u ps qs first later ih ih' =>
    have le := first.kept.length_rest_le
    have le' := later.kept.length_rest_le
    by_cases empty : ps = []
    · have := ih' (by simpa [empty] using filled)
      omega
    · have := ih empty
      omega
  | leaf single => exact length_rest_advanced (ne_endOfInput_of_single? single)
  | @enclosed s t ps opens inner closes _ =>
    have first := length_rest_advanced (s := s) (by rw [opens]; nofun)
    have last := length_rest_advanced (s := t) (by rw [closes]; nofun)
    have le := inner.kept.length_rest_le
    omega
  | entered _ parts _ ih => exact ih parts
  | within _ _ ih => exact ih filled

/-- The part that is finished last is the node that is entered last. -/
theorem Reads.last {ids : List NodeId} (h : Reads s ids t) :
    match ids.getLast? with
    | none => t.nodes.size = s.nodes.size
    | some id => s.nodes.size ≤ id ∧ id + 1 = t.nodes.size := by
  induction h with
  | nothing => rfl
  | @append s t u ps qs first later ih ih' =>
    have le := first.kept.size_nodes_le
    rw [List.getLast?_append]
    cases hq : qs.getLast? with
    | some id =>
      rw [hq] at ih'
      exact ⟨Nat.le_trans le ih'.1, ih'.2⟩
    | none =>
      rw [hq] at ih'
      rw [Option.none_or]
      split
      · rename_i hp
        rw [hp] at ih
        exact ih'.trans ih
      · rename_i id hp
        rw [hp] at ih
        exact ⟨ih.1, ih.2.trans ih'.symm⟩
  | link => exact congrArg Array.size (State.nodes_advanced _)
  | leaf =>
    simp only [List.getLast?_singleton, State.entered, State.nodes_advanced, Array.size_push]
    exact ⟨Nat.le_refl _, trivial⟩
  | enclosed _ _ _ ih =>
    rw [State.nodes_advanced] at ih ⊢
    exact ih
  | entered read _ _ _ =>
    simp only [List.getLast?_singleton, State.entered, Array.size_push]
    exact ⟨read.kept.size_nodes_le, trivial⟩
  | within _ _ ih => exact ih

end InventoryQuery.Grammar
