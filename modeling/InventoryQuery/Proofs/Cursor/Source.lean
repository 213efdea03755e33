import InventoryQuery.Proofs.Cursor.Marker
import InventoryQuery.Proofs.Grammar.Accessor
import InventoryQuery.Proofs.Grammar.Mirror
import InventoryQuery.Proofs.Tree.WellFormed
import InventoryQuery.Proofs.Typing.Compositional

/-! A cursor behind an arrow or before `of`. The marker that is put there is a property of all the
rest, and its type is the type that the rest has as a text of its own. -/

namespace InventoryQuery

open Grammar

/-- The forms that the rule `property` gives, apart from `exists` behind an arrow. -/
def Expr.Accessible (e : Expr) : Prop := e.Chosen ∨ ∃ accessor source, e = .node (.property accessor source)

theorem Expr.Accessible.rank_le {e : Expr} (h : e.Accessible) : e.rank ≤ Rule.property.looseness := by
  rcases h with chosen | ⟨accessor, source, rfl⟩
  · rw [e.rank_of_chosen chosen]
    decide
  · exact Nat.le_refl _

/-- A text of such a form can be a receiver. -/
theorem derives_accessible {text : List Char} {t : Tree} (h : compile text = .ok t)
    (form : t.rootExpr.Accessible) : ∃ n, Derives (.rule .property) (part text) t.rootExpr n := by
  obtain ⟨u, hu, same⟩ := compile_eq_ok h
  obtain ⟨n, -, -, hd, -⟩ := derives_of_parse hu
  rw [same] at form ⊢
  exact ⟨n, hd.tightened (by decide) form.rank_le⟩

theorem intercalate_concat {sep : List Char} {ps : List (List Char)} (h : ps ≠ [])
    (p : List Char) : sep.intercalate (ps ++ [p]) = sep.intercalate ps ++ (sep ++ p) := by
  induction ps with
  | nil => exact absurd rfl h
  | cons q ps ih =>
    cases ps with
    | nil => simp
    | cons r ps =>
      rw [List.cons_append, List.cons_append, List.intercalate_cons_cons, ← List.cons_append,
        ih (by simp), List.intercalate_cons_cons]
      simp

namespace Cursor

/-- A cursor at the end of a text that ends with a boundary. -/
theorem splice_end {boundaries : List Char} {b : Char} (h : b ∈ boundaries) (xs : List Char) :
    splice (xs ++ [b]) (byteSize (xs ++ [b])) boundaries =
      ⟨xs ++ [b] ++ [marker], countMarkers false (xs ++ [b])⟩ := by
  have last := cursor_byteSize (xs ++ [b]) []
  rw [List.append_nil] at last
  have cut : Cut boundaries (xs ++ [b]) (cursor (xs ++ [b]) (byteSize (xs ++ [b]))) (xs ++ [b]) [] [] :=
    ⟨by simp, by simp, by simp [h], by simp, Nat.le_of_eq last.symm, cursor_le _ _⟩
  exact cut.splice

/-- A cursor in the first word of a text. -/
theorem splice_word {boundaries w : List Char} (hw : ∀ c ∈ w, c ∉ boundaries) {b : Char}
    (hb : b ∈ boundaries) {offset : Nat} (ho : offset ≤ byteSize w) (xs : List Char) :
    splice (w ++ b :: xs) offset boundaries = ⟨marker :: b :: xs, 0⟩ := by
  have le := Nat.le_trans (cursor_le (w ++ b :: xs) offset) ho
  have cut : Cut boundaries (w ++ b :: xs) (cursor (w ++ b :: xs) offset) [] w (b :: xs) :=
    ⟨rfl, hw, by simp, by simp [hb], Nat.zero_le _, by simpa using le⟩
  exact cut.splice

/-- Where no parenthesis is open, the first attempt succeeds or none does. -/
theorem predict_of_balanced {options : Options} {text : List Char} {offset : Nat} {s : Spliced}
    (hs : splice text offset options.boundaries = s)
    (balanced : (outside false s.candidate).count '(' = (outside false s.candidate).count ')')
    (h : (predict options text offset).isEmpty = false) :
    ∃ t, compile s.candidate = .ok t ∧
      predict options text offset = ⟨s.candidate, 1, some t, t.markers[s.ordinal]?⟩ := by
  subst hs
  by_cases found : ∃ k < options.maxAttempts, ∃ t,
      compile (closed (splice text offset options.boundaries).candidate k) = .ok t
  · obtain ⟨k, hk, t, ht⟩ := found
    have balance := balance_of_closed ht
    obtain rfl : k = 0 := by omega
    have search := predict_of_ok hk ht
    rw [closed_zero] at ht search
    exact ⟨t, ht, search⟩
  · rw [predict_of_error fun k hk t ht => found ⟨k, hk, t, ht⟩] at h
    cases h

end Cursor

theorem length_markers {text : List Char} {t : Tree} (h : compile text = .ok t) :
    t.markers.length = (outside false text).count Cursor.marker := by
  rw [markers_of_compile h, ← List.length_map t.startOf, starts_of_compile h,
    length_places (by decide)]
  exact count_outside_rewriteKeywords (m := ('?', .question)) (by decide) text

/-- The parts of a property are where its row says. -/
theorem shape?_accessor {text : List Char} {t : Tree} (h : compile text = .ok t)
    {accessor source : NodeId} {e : Expr} (hr : t.shape? t.root = some (.property accessor source))
    (he : t.rootExpr = .node (.property (.node .marker) e)) :
    t.shape? accessor = some .marker ∧ t.expr source = e := by
  obtain ⟨u, whole, rfl⟩ := whole_of_compile h
  have down := whole.withScopes.downward
  obtain ⟨n, hn, shape⟩ := Option.map_eq_some_iff.1 hr
  have parts := Tree.expr_eq down hn
  rw [show u.withScopes.expr u.withScopes.root = u.withScopes.rootExpr from rfl, he, shape] at parts
  simp only [Shape.map, Expr.node.injEq, Shape.property.injEq] at parts
  refine ⟨?_, parts.2.symm⟩
  have inside : accessor < u.withScopes.size :=
    Nat.lt_trans (down _ n hn accessor (by simp [shape, Shape.children])) (Tree.lt_size_of_shape? hr)
  obtain ⟨m, hm⟩ : ∃ m, u.withScopes.nodes[accessor]? = some m :=
    ⟨_, Array.getElem?_eq_getElem inside⟩
  have leaf := parts.1
  rw [Tree.expr_eq down hm] at leaf
  rw [Tree.shape?, hm, Option.map_some]
  cases hs : m.shape <;> rw [hs] at leaf <;> first | rfl | cases leaf

theorem markers_head {text : List Char} {t : Tree} (h : compile text = .ok t)
    (hm : t.shape? 0 = some .marker) : t.markers[0]? = some 0 := by
  have filled := Tree.lt_size_of_shape? hm
  obtain ⟨k, hk⟩ := Nat.exists_eq_succ_of_ne_zero (Nat.ne_of_gt filled)
  rw [markers_of_compile h, Tree.ids, hk, List.range_succ_eq_map,
    List.filter_cons_of_pos (by simpa using hm)]
  rfl

theorem markers_last {text : List Char} {t : Tree} (h : compile text = .ok t) {id : NodeId}
    (hr : t.root = id + 1) (hm : t.shape? id = some .marker)
    (root : t.shape? t.root ≠ some .marker) : t.markers[t.markers.length - 1]? = some id := by
  have size : t.size = id + 1 + 1 := by
    obtain ⟨u, whole, rfl⟩ := whole_of_compile h
    rw [← whole.withScopes.root_eq, hr]
  rw [hr] at root
  rw [← List.getLast?_eq_getElem?, markers_of_compile h, Tree.ids, size, List.range_succ,
    List.filter_append, List.filter_cons_of_neg (by simpa using root), List.filter_nil,
    List.append_nil, List.range_succ, List.filter_append, List.filter_cons_of_pos (by simpa using hm),
    List.filter_nil, List.getLast?_concat]

namespace Cursor

/-- A marker that is the accessor of the whole text is marked with the type of the source. -/
theorem marked_accessor {text : List Char} {t : Tree} (h : compile text = .ok t)
    {accessor source : NodeId} {e : Expr} (hr : t.shape? t.root = some (.property accessor source))
    (he : t.rootExpr = .node (.property (.node .marker) e)) {p : Prediction}
    (tree : p.tree = some t) (marker : p.marker = some accessor) :
    p.marked = some (.node accessor) ∧ ∀ ix, p.markedType ix = some (e.type ix none false) := by
  obtain ⟨isMarker, rfl⟩ := shape?_accessor h hr he
  obtain ⟨direct, type⟩ := typeOf?_accessor h hr isMarker
  have marked : p.marked = some (.node accessor) := by
    simp [Prediction.marked, tree, marker, direct]
  refine ⟨marked, fun ix => ?_⟩
  simp [Prediction.markedType, tree, marked, type ix]

theorem selectionText_marker : SelectionText [marker] (.node .marker) :=
  ⟨⟨#[⟨.marker, ⟨0, 1⟩, none, false⟩], 0⟩, rfl, rfl, trivial⟩

theorem part_marker : part [marker] = [⟨.question, [marker], 0⟩] := rfl

/-- Receivers have no part in the forms. -/
theorem shape?_of_parse {u : Tree} {shape : Option (Shape NodeId)}
    (h : u.shape? u.root = shape) : u.withScopes.shape? u.withScopes.root = shape :=
  (Tree.map_shape_eq (Tree.shapes_withScopes u) u.root).trans h

/-- Where a chain ends with a marker, the marker is the row before the root. -/
theorem root_of_chain {ps : List (List Char)} {es : List Expr}
    (hs : List.Forall₂ SelectionText ps es) (hne : ps ≠ []) {t : Tree}
    (ht : compile (" -> ".toList.intercalate (ps ++ [[marker]])) = .ok t) :
    ∃ accessor source, t.root = accessor + 1 ∧
      t.shape? t.root = some (.property accessor source) := by
  cases hs with
  | nil => exact absurd rfl hne
  | @cons p e ps es first hs =>
    have all := List.rel_append hs (.cons selectionText_marker .nil)
    have read := contents_chain .arrow first all
    obtain ⟨n, hx⟩ := first.selects
    obtain ⟨m, hd⟩ := derives_arrow_chain (w := Joint.arrow.token) rfl
      (List.forall₂_map_left_iff.2 (hs.imp fun _ _ => SelectionText.selects)) e
    rw [← reading_part, List.map_append, List.flatMap_append, List.map_singleton,
      List.flatMap_singleton, part_marker, reading_append, reading_append] at read
    obtain ⟨xs, rest, split, rx, rrest⟩ := List.map_eq_append_iff.1 read
    obtain ⟨ts, last, rfl, rts, rlast⟩ := List.map_eq_append_iff.1 rrest
    obtain ⟨w, others, rfl, hw, rq⟩ := List.map_eq_cons_iff.1 rlast
    obtain ⟨q, behind, rfl, hq, rbehind⟩ := List.map_eq_cons_iff.1 rq
    cases List.map_eq_nil_iff.1 rbehind
    obtain ⟨u, hu, rfl⟩ := exists_parse_of_compile ht
    obtain ⟨accessor, source, root, shape⟩ := shape?_of_chain_marker hu split (hx.of_texts rx)
      (hd.of_texts rts) (congrArg Prod.fst hw) (congrArg Prod.fst hq)
    exact ⟨accessor, source, root, shape?_of_parse shape⟩

/-- A marker at the end of a chain is read from the chain before it. -/
theorem rootExpr_chain_marker {ps : List (List Char)} {es : List Expr}
    (hs : List.Forall₂ SelectionText ps es) (hne : ps ≠ []) {t v : Tree}
    (ht : compile (" -> ".toList.intercalate ps) = .ok t)
    (hv : compile (" -> ".toList.intercalate (ps ++ [[marker]])) = .ok v) :
    v.rootExpr = .node (.property (.node .marker) t.rootExpr) := by
  have all : List.Forall₂ SelectionText (ps ++ [[marker]]) (es ++ [.node .marker]) :=
    List.rel_append hs (.cons selectionText_marker .nil)
  have filled : es.reverse ≠ [] := fun empty => hne <|
    List.eq_nil_of_length_eq_zero (by rw [hs.length_eq, ← List.length_reverse, empty]; rfl)
  rw [rootExpr_arrow_chain hs hne ht, rootExpr_arrow_chain all (by simp) hv,
    List.reverse_append, List.reverse_singleton, List.singleton_append, propertyChain_cons filled]

/-- Behind an arrow, the marker is the accessor of the chain before it. -/
theorem marked_after_chain {ps : List (List Char)} {es : List Expr}
    (hs : List.Forall₂ SelectionText ps es) (hne : ps ≠ []) {t : Tree}
    (ht : compile (" -> ".toList.intercalate ps) = .ok t) {text : List Char}
    (htext : text = " -> ".toList.intercalate ps ++ " -> ".toList)
    (h : (predict .standard text (byteSize text)).isEmpty = false) :
    (predict .standard text (byteSize text)).attempts = 1 ∧
      ∃ m, (predict .standard text (byteSize text)).marked = some (.node m) ∧
        ∀ ix, (predict .standard text (byteSize text)).markedType ix =
          some (t.rootExpr.type ix none false) := by
  have ending : text = (" -> ".toList.intercalate ps ++ " ->".toList) ++ [' '] := by
    rw [htext, List.append_assoc]
    rfl
  have candidate : text ++ [marker] = " -> ".toList.intercalate (ps ++ [[marker]]) := by
    rw [intercalate_concat hne, htext, List.append_assoc]
  have closed : quoteOpen false text = false := by
    rw [htext, quoteOpen_append, quotes_closed_of_compile ht]
    rfl
  have after (c : Char) : (outside false (text ++ [marker])).count c =
      (outside false text).count c + [marker].count c := by
    rw [outside_append, closed, List.count_append]
    rfl
  have balanced : (outside false (text ++ [marker])).count '(' =
      (outside false (text ++ [marker])).count ')' := by
    rw [after, after, htext, outside_append, quotes_closed_of_compile ht, List.count_append,
      List.count_append, balanced_of_compile ht]
    rfl
  have boundary : ' ' ∈ Options.standard.boundaries := by decide
  have spliced := splice_end boundary (" -> ".toList.intercalate ps ++ " ->".toList)
  rw [← ending] at spliced
  obtain ⟨v, hv, hp⟩ := predict_of_balanced spliced balanced h
  dsimp only at hv hp
  have expr := rootExpr_chain_marker hs hne ht (candidate ▸ hv)
  obtain ⟨accessor, source, root, shape⟩ := root_of_chain hs hne (candidate ▸ hv)
  have isMarker := (shape?_accessor hv shape expr).1
  have last : v.markers[countMarkers false text]? = some accessor := by
    have number : v.markers.length - 1 = countMarkers false text := by
      rw [length_markers hv, after, countMarkers_eq]
      rfl
    rw [← number]
    exact markers_last hv root isMarker (by simp [shape])
  rw [hp]
  exact ⟨rfl, accessor, marked_accessor hv shape expr rfl last⟩

def markerOf (text : List Char) : List Char := [marker] ++ ' ' :: (Joint.of.word ++ ' ' :: text)

theorem reading_markerOf (text : List Char) :
    reading (part (markerOf text)) = reading (part [marker] ++ Joint.of.token :: part text) := by
  rw [markerOf, reading_part, rewriteKeywords_joined .of (by rfl), contents_joint .of
    selectionText_marker.valid, reading_append, reading_cons, reading_part, reading_part]

/-- A marker before `of` is read from what comes after it, and its row is the first. -/
theorem root_of_markerOf {text : List Char} {t v : Tree} (ht : compile text = .ok t)
    (form : t.rootExpr.Accessible) (hv : compile (markerOf text) = .ok v) :
    v.rootExpr = .node (.property (.node .marker) t.rootExpr) ∧
      ∃ source, v.shape? v.root = some (.property 0 source) := by
  have read := reading_markerOf text
  obtain ⟨k, hx⟩ := selectionText_marker.selects
  obtain ⟨n, hy⟩ := derives_accessible ht form
  constructor
  · exact rootExpr_of_reading hv (by rw [← reading_part, read])
      ((Derives.sourced (o := Joint.of.token) rfl hx hy).loosened (by decide))
  · rw [part_marker] at read
    obtain ⟨q, rest, split, hq, rrest⟩ := List.map_eq_cons_iff.1 read
    obtain ⟨w, ys, rfl, hw, rys⟩ := List.map_eq_cons_iff.1 rrest
    obtain ⟨u, hu, rfl⟩ := exists_parse_of_compile hv
    obtain ⟨source, shape⟩ := shape?_of_marker_of hu split (congrArg Prod.fst hq)
      (congrArg Prod.fst hw) (hy.of_texts rys)
    exact ⟨source, shape?_of_parse shape⟩

/-- Before `of`, the marker is the accessor of what comes after it. -/
theorem marked_before_source {text : List Char} {t : Tree} (ht : compile text = .ok t)
    (form : t.rootExpr.Accessible) {word whole : List Char} {offset : Nat}
    (hword : ∀ c ∈ word, c ∉ Options.standard.boundaries) (ho : offset ≤ byteSize word)
    (hwhole : whole = word ++ " of ".toList ++ text)
    (h : (predict .standard whole offset).isEmpty = false) :
    (predict .standard whole offset).attempts = 1 ∧
      ∃ m, (predict .standard whole offset).marked = some (.node m) ∧
        ∀ ix, (predict .standard whole offset).markedType ix =
          some (t.rootExpr.type ix none false) := by
  have spliced := splice_word hword (b := ' ') (by decide) ho ("of ".toList ++ text)
  rw [show word ++ ' ' :: ("of ".toList ++ text) = whole by rw [hwhole]; simp] at spliced
  have joined : marker :: ' ' :: ("of ".toList ++ text) = markerOf text := by
    simp [markerOf, Joint.word]
  rw [joined] at spliced
  have balanced : (outside false (markerOf text)).count '(' =
      (outside false (markerOf text)).count ')' := by
    have front : markerOf text = "? of ".toList ++ text := rfl
    rw [front, outside_append, List.count_append, List.count_append]
    exact congrArg _ (balanced_of_compile ht)
  obtain ⟨v, hv, hp⟩ := predict_of_balanced spliced balanced h
  obtain ⟨expr, source, shape⟩ := root_of_markerOf ht form hv
  have first := markers_head hv (shape?_accessor hv shape expr).1
  rw [hp]
  exact ⟨rfl, 0, marked_accessor hv shape expr rfl first⟩

/-- The type at the cursor is the type of the receiver, behind a chain of arrows and before `of`. -/
theorem marked_type_of_receiver :
    (∀ (ps : List (List Char)) (t : Tree), ps ≠ [] →
      (∀ p ∈ ps, ∃ u, compile p = .ok u ∧ u.rootExpr.Chosen) →
      compile (" -> ".toList.intercalate ps) = .ok t →
      let text := " -> ".toList.intercalate ps ++ " -> ".toList
      let p := predict .standard text (byteSize text)
      p.isEmpty = false → p.attempts = 1 ∧ (∃ m, p.marked = some (.node m)) ∧
        ∀ ix, ∃ r, p.markedType ix = some r ∧ t.typeOf? ix t.root = some r) ∧
    ∀ (word text : List Char) (offset : Nat) (t : Tree),
      (∀ c ∈ word, c ∉ Options.standard.boundaries) → offset ≤ byteSize word →
      compile text = .ok t → t.rootExpr.Accessible →
      let p := predict .standard (word ++ " of ".toList ++ text) offset
      p.isEmpty = false → p.attempts = 1 ∧ (∃ m, p.marked = some (.node m)) ∧
        ∀ ix, ∃ r, p.markedType ix = some r ∧ t.typeOf? ix t.root = some r := by
  constructor
  · intro ps t hne parts ht text p filled
    obtain ⟨es, hs⟩ : ∃ es, List.Forall₂ SelectionText ps es := by
      clear ht hne filled
      induction ps with
      | nil => exact ⟨[], .nil⟩
      | cons p ps ih =>
        obtain ⟨⟨u, hu, chosen⟩, rest⟩ := List.forall_mem_cons.1 parts
        obtain ⟨es, hs⟩ := ih rest
        exact ⟨_ :: es, .cons ⟨u, hu, rfl, chosen⟩ hs⟩
    obtain ⟨once, m, marked, type⟩ := marked_after_chain hs hne ht rfl filled
    exact ⟨once, ⟨m, marked⟩, fun ix => ⟨_, type ix, typeOf?_root ht ix⟩⟩
  · intro word text offset t hword ho ht form p filled
    obtain ⟨once, m, marked, type⟩ := marked_before_source ht form hword ho rfl filled
    exact ⟨once, ⟨m, marked⟩, fun ix => ⟨_, type ix, typeOf?_root ht ix⟩⟩

theorem marked_type_of_receiver_it :
    let ps := [['i', 't'], ['n']]
    let t : Tree := ⟨#[⟨.it, ⟨0, 3⟩, none, false⟩, ⟨.phrase "n" none, ⟨7, 8⟩, some 0, true⟩,
      ⟨.property 1 0, ⟨0, 8⟩, none, false⟩], 2⟩
    let text := " -> ".toList.intercalate ps ++ " -> ".toList
    let p := predict .standard text (byteSize text)
    let u : Tree := ⟨#[⟨.phrase "n" none, ⟨0, 1⟩, some 1, true⟩, ⟨.it, ⟨6, 9⟩, none, false⟩,
      ⟨.property 0 1, ⟨0, 9⟩, none, false⟩], 2⟩
    let q := predict .standard (['w'] ++ " of ".toList ++ "n of it".toList) 1
    (ps ≠ [] ∧ (∀ p ∈ ps, ∃ u, compile p = .ok u ∧ u.rootExpr.Chosen) ∧
      compile (" -> ".toList.intercalate ps) = .ok t ∧ p.isEmpty = false ∧
      p.attempts = 1 ∧ (∃ m, p.marked = some (.node m)) ∧
      ∀ ix, ∃ r, p.markedType ix = some r ∧ t.typeOf? ix t.root = some r) ∧
    (∀ c ∈ ['w'], c ∉ Options.standard.boundaries) ∧ 1 ≤ byteSize ['w'] ∧
      compile "n of it".toList = .ok u ∧ u.rootExpr.Accessible ∧ q.isEmpty = false ∧
      q.attempts = 1 ∧ (∃ m, q.marked = some (.node m)) ∧
      ∀ ix, ∃ r, q.markedType ix = some r ∧ u.typeOf? ix u.root = some r := by
  intro ps t text p u q
  have it : compile ['i', 't'] = .ok ⟨#[⟨.it, ⟨0, 3⟩, none, false⟩], 0⟩ := by decide +kernel
  have n : compile ['n'] = .ok ⟨#[⟨.phrase "n" none, ⟨0, 1⟩, none, false⟩], 0⟩ := by decide +kernel
  have parts : ∀ p ∈ ps, ∃ u, compile p = .ok u ∧ u.rootExpr.Chosen := by
    simp only [ps, List.mem_cons, List.not_mem_nil, or_false, forall_eq_or_imp, forall_eq]
    exact ⟨⟨_, it, trivial⟩, _, n, trivial⟩
  have chain : compile (" -> ".toList.intercalate ps) = .ok t := by decide +kernel
  have filled : p.isEmpty = false := by decide +kernel
  have source : compile "n of it".toList = .ok u := by decide +kernel
  have form : u.rootExpr.Accessible := .inr ⟨_, _, rfl⟩
  have word : ∀ c ∈ ['w'], c ∉ Options.standard.boundaries :=
    List.forall_mem_singleton.2 (by decide)
  have filled' : q.isEmpty = false := by decide +kernel
  exact ⟨⟨by decide, parts, chain, filled,
      marked_type_of_receiver.1 ps t (by decide) parts chain filled⟩,
    word, by decide, source, form, filled',
    marked_type_of_receiver.2 ['w'] "n of it".toList 1 u word (by decide) source form filled'⟩

end Cursor

end InventoryQuery
