import InventoryQuery.Proofs.Grammar.Acceptance

/-! A property of the whole text whose accessor is a marker, row by row. Before `of` the marker is
the first node of the table, after an arrow it is the last one but the property. The expression does
not tell the two apart, so the run is followed to the row that is entered last. -/

namespace InventoryQuery

namespace Grammar

variable {s : State} {room n : Nat} {rest : List Token} {below : Stack}

theorem shape_entered (shape : Shape NodeId) (start : Nat) :
    (s.entered shape start).nodes[s.nodes.size]?.map (·.shape) = some shape := by
  simp [State.entered]

/-- Entering a node, with all that is known afterwards. -/
theorem Meets.entered {shape : Shape NodeId} {start : Nat} {post : NodeId → State → Prop}
    (hr : s.rest = rest) (h : post s.nodes.size (s.entered shape start)) :
    Meets (Grammar.enter shape start) s 0 rest post := ⟨Nat.zero_le _, hr, rfl, h⟩

/-- A marker by itself is one new row. -/
theorem meets_marker {q : Token} (hq : q.kind = .question) (hs : s.rest = q :: rest)
    (hr : Rule.selection.looseness ≤ closing (ahead rest)) :
    Meets (apply (nestedIn room) .selection) s 0 rest fun a t => a = s.nodes.size ∧
      t.nodes.size = a + 1 ∧ ∀ stack, Holds s stack → Holds t (stack ++ [(a, .node .marker)]) := by
  have starts : opening s.here.kind = 0 := by rw [here_cons hs, hq]; rfl
  have primary : Meets (apply (nestedIn room) .primary) s 0 rest fun a t => a = s.nodes.size ∧
      t.nodes.size = a + 1 ∧ ∀ stack, Holds s stack → Holds t (stack ++ [(a, .node .marker)]) := by
    have read := advanced_cons hs (by simp [hq])
    have new (stack : Stack) (h : Holds s stack) :
        Holds (s.advanced.entered .marker q.start)
          (stack ++ [(s.advanced.nodes.size, .node .marker)]) := by
      have held : Holds s.advanced (stack ++ []) := by simpa using h.advanced
      exact @Holds.entered s.advanced stack [] .marker held (.refl _) trivial q.start
    refine .peek ?_
    rw [here_cons hs, hq]
    refine ⟨Nat.zero_le _, by rw [read]; rfl, by rw [read]; rfl, ?_, ?_, new⟩
    · rw [s.nodes_advanced]
    · simp [State.entered]
  refine .loosen (r := .selection) (by rw [starts]; exact Nat.zero_le _) hr ?_
  exact .loosen (r := .reference) (by rw [starts]; exact Nat.zero_le _)
    (Nat.le_trans (by decide) hr) primary

/-- Before `of`, the marker is the first row that is new. -/
theorem meets_marker_of {q w : Token} {ys : List Token} {y : Expr} (hq : q.kind = .question)
    (hw : w.kind = .ofWord) (hy : Derives (.rule .property) ys y n) (hroom : s.contexts.room = room)
    (hs : s.rest = q :: w :: (ys ++ rest)) (hr : Rule.property.looseness ≤ closing (ahead rest))
    (h : Holds s below) :
    Meets (apply (nestedIn room) .property) s (n + 1) rest fun root t =>
      ∃ source, t.nodes[root]?.map (·.shape) = some (.property s.nodes.size source) := by
  refine .peek (.accept_ne (by simp [hs, hq]) ?_)
  rw [← Nat.zero_max (n + 1)]
  refine .bind (meets_marker hq hs (by simp [hw, closing, Rule.looseness])) fun a t ht ct ha => ?_
  obtain ⟨rfl, -, holds⟩ := ha
  refine .accept ht hw (by decide) fun s₁ r₁ c₁ k₁ => ?_
  have source := Completed.nestedIn hy.followed room .propertyChain s₁ rest _
    (by rw [c₁, ct, hroom]) r₁ hr (k₁ _ (holds _ h))
  exact .bind_last source fun b u hu _ _ => .entered hu ⟨b, shape_entered _ _⟩

/-- After an arrow, the marker is the row before the property. -/
theorem meets_arrow_marker {w q : Token} {start id : Nat} (hw : w.kind = .arrow)
    (hq : q.kind = .question) (hroom : s.contexts.room = room) (hs : s.rest = w :: q :: rest)
    (hr : Rule.selection.looseness ≤ closing (ahead rest)) :
    Meets (arrowStep (nestedIn room) start id) s 1 rest fun o t => ∃ root, o = some root ∧
      ∃ accessor source, root = accessor + 1 ∧
        t.nodes[root]?.map (·.shape) = some (.property accessor source) := by
  refine .accept hs hw (by decide) fun s₁ r₁ c₁ _ => .peek ?_
  rw [here_cons r₁, hq]
  have accessor : Meets (nestedIn room .propertyChain .selection) s₁ 1 rest
      fun a t => t.nodes.size = a + 1 :=
    .nestedIn (by rw [c₁, hroom]) (fun k d _ =>
      (meets_marker (s := { s₁ with contexts := d }) hq r₁ hr).imp fun a t ha _ => ha.2.1)
      .propertyChain
  refine .bind_last accessor fun a u hu _ size => ?_
  exact .map (.entered hu ⟨_, rfl, a, id, size, shape_entered _ _⟩)

/-- All that follows a property in its own rule follows an arrow. -/
theorem Derives.ahead_more {left : Expr} {ts : List Token} {e : Expr}
    (h : Derives (.more .property left) ts e n) {w : Token} (hw : w.kind = .arrow)
    (us : List Token) : ahead (ts ++ w :: us) = .arrow := by
  cases h with
  | done => exact hw
  | arrow hv | arrowExists hv => exact hv
  | operator ho => cases ho

/-- The same where other arrows come first. -/
theorem meets_arrows_marker {p : Part} {ts : List Token} {e : Expr} (hd : Derives p ts e n) :
    ∀ {left w q start id s rest below}, p = .more .property left → w.kind = .arrow →
      q.kind = .question → s.contexts.room = room → s.rest = ts ++ w :: q :: rest →
      Rule.property.looseness ≤ closing (ahead rest) → Holds s (below ++ [(id, left)]) →
      Meets (repeated (arrowStep (nestedIn room) start) id) s (max n 1) rest fun root t =>
        ∃ accessor source, root = accessor + 1 ∧
          t.nodes[root]?.map (·.shape) = some (.property accessor source) := by
  have steady (start : Nat) := steady_arrowStep (local_nestedIn room) start
  induction hd with
  | done =>
    intro _ w q start id s rest below same hw hq hroom hs hr h
    rw [Nat.max_comm]
    refine .repeated_some (steady start)
      (meets_arrow_marker hw hq hroom hs (Nat.le_trans (by decide) hr)) fun root t ht _ found => ?_
    have declines : stepOf (nestedIn room) .property start root t = .ok none t :=
      stepOf_none (by rwa [here_kind, ht]) start root
    exact .repeated_none (steady start) declines ht found
  | arrow hv hx hd _ ih =>
    intro _ w q start id s rest below same hw hq hroom hs hr h
    cases same
    rw [List.cons_append, List.append_assoc] at hs
    rw [Nat.max_assoc]
    refine .repeated_some (steady start) (.arrowStep hv hx hx.followed hroom hs
      (by rw [hd.ahead_more hw]; decide) h) fun a t ht hc ha => ?_
    exact ih rfl hw hq (by rw [hc, hroom]) ht hr ha
  | arrowExists hv ho hd ih =>
    intro _ w q start id s rest below same hw hq hroom hs hr h
    cases same
    refine (Nat.zero_max (max _ 1)) ▸ .repeated_some (steady start) (.arrowExists hv ho hs h)
      fun a t ht hc ha => ?_
    exact ih rfl hw hq (by rw [hc, hroom]) ht hr ha
  | operator ho =>
    intro _ _ _ _ _ _ _ _ same
    cases same
    cases ho
  | _ => nofun

/-- After a chain of arrows and one more, the marker is the row before the property. -/
theorem meets_chain_marker {w q : Token} {xs ts : List Token} {x e : Expr} {m : Nat}
    (hx : Derives (.rule .selection) xs x n) (hd : Derives (.more .property x) ts e m)
    (hw : w.kind = .arrow) (hq : q.kind = .question) (hroom : s.contexts.room = room)
    (hs : s.rest = xs ++ (ts ++ w :: q :: rest))
    (hr : Rule.property.looseness ≤ closing (ahead rest)) (h : Holds s below) :
    Meets (apply (nestedIn room) .property) s (max n (max m 1)) rest fun root t =>
      ∃ accessor source, root = accessor + 1 ∧
        t.nodes[root]?.map (·.shape) = some (.property accessor source) := by
  have starts := hx.opens_here hs
  rw [here_kind] at starts
  have arrow := hd.ahead_more hw (q :: rest)
  have first := hx.followed room s _ below hroom hs (by rw [arrow]; decide) h
  refine .peek (.accept_ne (ne_of_opening starts (by decide))
    (.bind first fun a t ht ct ha => .accept_ne (by rw [ht, arrow]; decide) ?_))
  exact meets_arrows_marker hd rfl hw hq (by rw [ct, hroom]) ht hr ha

/-- What the rule `property` gives for the whole input is given for the input. -/
theorem whole_of_property (ts : List Token) (eof : Token) {post : NodeId → State → Prop}
    (heof : eof.kind = .endOfInput) (hk : opening (ahead (ts ++ [eof])) ≤ Rule.property.looseness)
    (h : Meets (apply (nestedIn maxNesting) .property) (.initial (ts ++ [eof])) n [eof] post) :
    Meets whole (.initial (ts ++ [eof])) n [eof] post := by
  have closes : Rule.expression.looseness ≤ closing (ahead [eof]) := by
    rw [ahead_cons, heof]
    exact looseness_le _
  have expression : Meets (run .expression) (.initial (ts ++ [eof])) n [eof] post := by
    unfold Meets run
    exact h.loosened (by decide) (by rwa [here_kind]) closes
  refine .bind_last expression fun a s hs _ ha => .peek ?_
  rw [if_pos (by rw [here_cons hs, heof])]
  exact .pure hs ha

/-- What is known of the run is known of the tree that is accepted. -/
theorem of_parse {text : List Char} {t : Tree} (h : parse text = .ok t) {rest : List Token}
    {post : NodeId → State → Prop} (meets : Meets whole (.initial (tokens text)) n rest post) :
    ∃ s : State, s.nodes = t.nodes ∧ post t.root s := by
  unfold parse parseTokens at h
  unfold Meets at meets
  split at h
  · cases h
  rename_i root s hw
  rw [hw] at meets
  split at h <;> cases h
  exact ⟨s, rfl, meets.2.2.2⟩

end Grammar

open Grammar

/-- The text of a marker, `of` and a property: the marker is the first row. -/
theorem shape?_of_marker_of {text : List Char} {t : Tree} (h : parse text = .ok t)
    {q w : Token} {ys : List Token} {y : Expr} {n : Nat}
    (ht : (tokens text).dropLast = q :: w :: ys) (hq : q.kind = .question) (hw : w.kind = .ofWord)
    (hy : Derives (.rule .property) ys y n) :
    ∃ source, t.shape? t.root = some (.property 0 source) := by
  have split := tokens_eq text
  rw [ht] at split
  have closes : Rule.property.looseness ≤ closing (ahead [Token.endOf text]) := looseness_le _
  have meets := whole_of_property (q :: w :: ys) (Token.endOf text) rfl
    (by simp [hq, opening]) (meets_marker_of hq hw hy rfl rfl closes (.initial _))
  rw [← split] at meets
  obtain ⟨s, nodes, found⟩ := of_parse h meets
  rw [nodes] at found
  exact found

/-- The text of a chain of arrows that ends with a marker: the marker is the row before the last. -/
theorem shape?_of_chain_marker {text : List Char} {t : Tree} (h : parse text = .ok t)
    {w q : Token} {xs ts : List Token} {x e : Expr} {n m : Nat}
    (ht : (tokens text).dropLast = xs ++ (ts ++ [w, q]))
    (hx : Derives (.rule .selection) xs x n) (hd : Derives (.more .property x) ts e m)
    (hw : w.kind = .arrow) (hq : q.kind = .question) :
    ∃ accessor source, t.root = accessor + 1 ∧
      t.shape? t.root = some (.property accessor source) := by
  have split := tokens_eq text
  rw [ht] at split
  have starts : opening (ahead (xs ++ (ts ++ [w, q]) ++ [Token.endOf text])) ≤
      Rule.property.looseness := by
    rw [List.append_assoc, ahead_append_of_opening (hx.opens _ rfl)]
    exact Nat.le_trans (hx.opens _ rfl) (by decide)
  have closes : Rule.property.looseness ≤ closing (ahead [Token.endOf text]) := looseness_le _
  have meets := whole_of_property (xs ++ (ts ++ [w, q])) (Token.endOf text) rfl starts
    (meets_chain_marker hx hd hw hq rfl (by simp [State.initial]) closes (.initial _))
  rw [← split] at meets
  obtain ⟨s, nodes, found⟩ := of_parse h meets
  rw [nodes] at found
  exact found

end InventoryQuery
