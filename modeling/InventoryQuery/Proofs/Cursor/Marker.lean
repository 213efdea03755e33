import InventoryQuery.Cursor.Completion
import InventoryQuery.Proofs.Cursor.Search
import InventoryQuery.Proofs.Cursor.Word
import InventoryQuery.Proofs.Grammar.Ledger

/-! The marker at the cursor. Markers are nodes in the order of the text, and there is one for every
marker that stands outside a string, so the one that was put in is found by counting those before
it. Put into a string it is no node at all, and the count then leads to the first marker behind the
string. -/

namespace InventoryQuery

open Grammar

namespace Tree

theorem starts_ids (t : Tree) (s : Shape NodeId) :
    (t.ids.filter fun id => t.shape? id = some s).map t.startOf =
      (t.nodes.toList.filter (·.shape = s)).map (·.span.start) := by
  obtain ⟨nodes, root⟩ := t
  induction nodes using rows_induction with
  | empty => rfl
  | push nodes n ih =>
    have below (id : NodeId) (hid : id ∈ List.range nodes.size) :
        (nodes.push n)[id]? = nodes[id]? := by
      rw [Array.getElem?_push, if_neg (Nat.ne_of_lt (List.mem_range.1 hid))]
    have before : (List.range nodes.size).filter (fun id => shape? ⟨nodes.push n, root⟩ id = some s) =
        (List.range nodes.size).filter (fun id => shape? ⟨nodes, root⟩ id = some s) :=
      List.filter_congr fun id hid => by rw [shape?, shape?, below id hid]
    have last : shape? ⟨nodes.push n, root⟩ nodes.size = some n.shape ∧
        startOf ⟨nodes.push n, root⟩ nodes.size = n.span.start := by
      simp [shape?, startOf]
    rw [ids, size, Array.size_push, List.range_succ, List.filter_append, List.map_append, before,
      Array.toList_push, List.filter_append, List.map_append, ← ih]
    congr 1
    · refine List.map_congr_left fun id hid => ?_
      rw [startOf, startOf, below id (List.mem_of_mem_filter hid)]
    · by_cases same : n.shape = s
      · simp [last, same]
      · simp [last, same]

end Tree

theorem starts_of_nodes (ns : List Node) :
    ((ns.filterMap Node.atom?).filter (·.1 = .marker)).map (·.2) =
      (ns.filter (·.shape = .marker)).map (·.span.start) := by
  induction ns with
  | nil => rfl
  | cons n ns ih =>
    cases hs : n.shape <;> simp [Node.atom?, Shape.isAtom, hs, ih]

theorem starts_of_tokens (ts : List Token) :
    ((ts.filterMap atomOf?).filter (·.1 = .marker)).map (·.2) =
      (ts.filter (·.kind = .question)).map (·.start) := by
  induction ts with
  | nil => rfl
  | cons t ts ih =>
    cases hk : t.kind <;> simp [atomOf?, hk, ih]

/-- In the order of their numbers, the markers of an accepted text start where a marker stands
outside double quotes. -/
theorem starts_of_compile {text : List Char} {t : Tree} (h : compile text = .ok t) :
    (t.ids.filter fun id => t.shape? id = some .marker).map t.startOf =
      places Cursor.marker false 0 (rewriteKeywords text) := by
  have valid := valid_of_compile h
  obtain ⟨u, hu, rfl⟩ := exists_parse_of_compile h
  rw [Tree.starts_ids, ← starts_of_nodes, Tree.filterMap_withScopes (fun _ => rfl),
    atoms_of_parse hu, starts_of_tokens]
  exact starts_tokens (m := ('?', .question)) (by decide) valid

/-- The markers are in order as they are numbered. -/
theorem markers_of_compile {text : List Char} {t : Tree} (h : compile text = .ok t) :
    t.markers = t.ids.filter fun id => t.shape? id = some .marker := by
  refine List.mergeSort_of_pairwise ?_
  have ordered := pairwise_places Cursor.marker false 0 (rewriteKeywords text)
  rw [← starts_of_compile h, List.pairwise_map] at ordered
  exact ordered.imp fun h => by simpa using Nat.le_of_lt h

theorem shape?_of_mem_markers {text : List Char} {t : Tree} (h : compile text = .ok t)
    {id : NodeId} (hm : id ∈ t.markers) : t.shape? id = some .marker := by
  rw [markers_of_compile h] at hm
  simpa using (List.mem_filter.1 hm).2

/-- The marker with a given number of markers before it, by its place in the text. -/
theorem startOf_markers {text : List Char} {t : Tree} (h : compile text = .ok t) (k : Nat) :
    t.markers[k]?.map t.startOf = (places Cursor.marker false 0 (rewriteKeywords text))[k]? := by
  rw [markers_of_compile h, ← List.getElem?_map, starts_of_compile h]

namespace Cursor

theorem countMarkers_eq (inside : Bool) (cs : List Char) :
    countMarkers inside cs = (outside inside cs).count marker := by
  induction cs generalizing inside with
  | nil => rfl
  | cons c cs ih =>
    by_cases quote : c = '"'
    · simp only [countMarkers, outside, if_pos quote, ih]
    · cases inside
      · simp [countMarkers, outside, quote, ih, List.count_cons, Nat.add_comm]
      · simp [countMarkers, outside, quote, ih]

def kept (options : Options) (text : List Char) (offset : Nat) : List Char :=
  upToLastBoundary options.boundaries (splitAtByte offset text).1

def resumed (options : Options) (text : List Char) (offset : Nat) : List Char :=
  fromNextBoundary options.boundaries (splitAtByte offset text).2

theorem splice_eq (options : Options) (text : List Char) (offset : Nat) :
    splice text offset options.boundaries =
      ⟨kept options text offset ++ marker :: resumed options text offset,
        countMarkers false (kept options text offset)⟩ := rfl

theorem closed_marker (xs ys : List Char) (k : Nat) :
    closed (xs ++ marker :: ys) k = xs ++ marker :: closed ys k := by
  simp [closed]

theorem count_outside_closed (inside : Bool) (cs : List Char) (k : Nat) :
    (outside inside (closed cs k)).count marker = (outside inside cs).count marker := by
  have unmarked : marker ∉ List.replicate k ')' := fun h =>
    absurd (List.eq_of_mem_replicate h) (by decide)
  rw [closed, outside_append, List.count_append, count_outside_of_not_mem unmarked, Nat.add_zero]

/-- Either nothing compiles and nothing is marked, or the marker is looked up in the tree of the
candidate. -/
theorem predict_cases (options : Options) (text : List Char) (offset : Nat) :
    let p := predict options text offset
    p.tree = none ∧ p.marker = none ∨
      ∃ k t, p.candidate = kept options text offset ++ marker :: closed (resumed options text offset) k ∧
        compile p.candidate = .ok t ∧ p.tree = some t ∧
        p.marker = t.markers[countMarkers false (kept options text offset)]? := by
  by_cases found : ∃ k < options.maxAttempts, ∃ u,
      compile (closed (splice text offset options.boundaries).candidate k) = .ok u
  · obtain ⟨k, hk, u, hu⟩ := found
    rw [predict_of_ok hk hu]
    exact .inr ⟨k, u, by rw [splice_eq, closed_marker], hu, rfl, rfl⟩
  · rw [predict_of_error fun k hk u hu => found ⟨k, hk, u, hu⟩]
    exact .inl ⟨rfl, rfl⟩

/-- The rewritten candidate is cut where the marker was put in, with the same signs on both sides.
What is found starts at the first marker from there on that is outside double quotes. -/
theorem marker_found {options : Options} {text : List Char} {offset : Nat} {t : Tree}
    (h : (predict options text offset).tree = some t) :
    ∃ u v, rewriteKeywords (predict options text offset).candidate = u ++ marker :: v ∧
      u.count marker = (kept options text offset).count marker ∧
      (∀ inside, (outside inside v).count marker =
        (outside inside (resumed options text offset)).count marker) ∧
      (predict options text offset).marker.map t.startOf =
        (places marker (quoteOpen false (kept options text offset)) (byteSize u) (marker :: v)).head? ∧
      ∀ m ∈ (predict options text offset).marker, t.shape? m = some .marker := by
  have isMark : ('?', Kind.question) ∈ marks := by decide
  rcases predict_cases options text offset with ⟨failed, -⟩ | ⟨k, u, candidate, compiled, tree, found⟩
  · rw [failed] at h
    cases h
  cases h.symm.trans tree
  obtain ⟨u, v, rewritten, hu, hv⟩ := rewriteKeywords_mark isMark (kept options text offset)
    (closed (resumed options text offset) k)
  change rewriteKeywords (_ ++ marker :: _) = u ++ marker :: v at rewritten
  rw [← candidate] at rewritten
  refine ⟨u, v, rewritten, count_of_signs hu isMark, fun inside => ?_, ?_, fun m hm => ?_⟩
  · rw [← count_outside_closed inside (resumed options text offset) k]
    exact count_outside_of_signs hv isMark inside
  · -- as many markers stand before the one that was put in as were counted
    have ordinal : (places marker false 0 u).length =
        countMarkers false (kept options text offset) := by
      rw [length_places (by decide), countMarkers_eq]
      exact count_outside_of_signs hu isMark false
    rw [found, startOf_markers compiled, rewritten, places_append, ← ordinal,
      List.getElem?_append_right (Nat.le_refl _), Nat.sub_self, Nat.zero_add,
      ← List.head?_eq_getElem?, quoteOpen_of_signs hu]
  · rw [found] at hm
    exact shape?_of_mem_markers compiled (List.mem_of_getElem? hm)

/-- Outside a string, the marker that is found is the one that was put in. -/
theorem marked_is_spliced (options : Options) (text : List Char) (offset : Nat) (t : Tree)
    (even : (kept options text offset).count '"' % 2 = 0)
    (h : (predict options text offset).tree = some t) :
    ∃ m, (predict options text offset).marker = some m ∧ t.shape? m = some .marker ∧
      let cut := splitAtByte (t.startOf m) (rewriteKeywords (predict options text offset).candidate)
      cut.1.count marker = (kept options text offset).count marker ∧ cut.2.head? = some marker := by
  obtain ⟨u, v, rewritten, count, -, start, isMarker⟩ := marker_found h
  have first : (places marker false (byteSize u) (marker :: v)).head? = some (byteSize u) := rfl
  rw [quoteOpen_eq_count, even] at start
  obtain ⟨m, hm, hs⟩ := Option.map_eq_some_iff.1 (start.trans first)
  refine ⟨m, hm, isMarker m hm, ?_⟩
  rw [hs, rewritten, splitAtByte_byteSize]
  exact ⟨count, rfl⟩

theorem marked_is_spliced_second :
    let text := "? of \"?\" of x".toList
    let t : Tree := ⟨#[⟨.marker, ⟨0, 1⟩, some 3, true⟩, ⟨.string "?", ⟨6, 9⟩, some 2, true⟩,
      ⟨.marker, ⟨14, 15⟩, none, false⟩, ⟨.property 1 2, ⟨6, 15⟩, none, false⟩,
      ⟨.property 0 3, ⟨0, 15⟩, none, false⟩], 4⟩
    (kept .standard text 13).count '"' % 2 = 0 ∧ (predict .standard text 13).tree = some t ∧
    ∃ m, (predict .standard text 13).marker = some m ∧ t.shape? m = some .marker ∧
      let cut := splitAtByte (t.startOf m) (rewriteKeywords (predict .standard text 13).candidate)
      cut.1.count marker = (kept .standard text 13).count marker ∧
        cut.2.head? = some marker := by
  intro text t
  have even : (kept .standard text 13).count '"' % 2 = 0 := by decide +kernel
  have tree : (predict .standard text 13).tree = some t := by decide +kernel
  exact ⟨even, tree, marked_is_spliced .standard text 13 t even tree⟩

/-- Without a marker nothing is said about the cursor. -/
theorem Prediction.unmarked {p : Prediction} (h : p.marker = none) :
    p.marked = none ∧ p.enclosingFilter = none ∧
      ∀ ix, p.markedType ix = none ∧ p.enclosingFilterType ix = none ∧ p.completions ix = [] := by
  have marked : p.marked = none := by
    unfold Prediction.marked
    rw [h]
    cases p.tree <;> rfl
  have filter : p.enclosingFilter = none := by
    unfold Prediction.enclosingFilter
    rw [h]
    cases p.tree <;> rfl
  have untyped (ix : Index) : p.markedType ix = none := by
    unfold Prediction.markedType
    rw [marked]
    cases p.tree <;> rfl
  refine ⟨marked, filter, fun ix => ⟨untyped ix, ?_, ?_⟩⟩
  · unfold Prediction.enclosingFilterType
    rw [filter]
    cases p.tree <;> rfl
  · rw [Prediction.completions, untyped ix]

section inString

variable {options : Options} {text : List Char} {offset : Nat} {t : Tree}
  (odd : (kept options text offset).count '"' % 2 = 1)
  (h : (predict options text offset).tree = some t)
include odd h

/-- What is found starts at the first marker behind the string. -/
theorem marker_behind :
    ∃ u v, rewriteKeywords (predict options text offset).candidate = u ++ marker :: v ∧
      u.count marker = (kept options text offset).count marker ∧
      (outside true v).count marker = (outside true (resumed options text offset)).count marker ∧
      (predict options text offset).marker.map t.startOf =
        (places marker true (byteSize u + 1) v).head? := by
  obtain ⟨u, v, rewritten, count, behind, start, -⟩ := marker_found h
  rw [quoteOpen_eq_count, odd] at start
  exact ⟨u, v, rewritten, count, behind true, start⟩

theorem marker_eq_none_iff : (predict options text offset).marker = none ↔
    (outside true (resumed options text offset)).count marker = 0 := by
  obtain ⟨u, v, -, -, count, start⟩ := marker_behind odd h
  rw [← count, ← length_places (by decide) true (byteSize u + 1), List.length_eq_zero_iff,
    ← List.head?_eq_none_iff, ← start, Option.map_eq_none_iff]

/-- It is not the one that was put in: more markers stand before it. -/
theorem count_lt_of_marker {m : NodeId} (hm : (predict options text offset).marker = some m) :
    (kept options text offset).count marker <
      (splitAtByte (t.startOf m)
        (rewriteKeywords (predict options text offset).candidate)).1.count marker := by
  obtain ⟨u, v, rewritten, count, -, start⟩ := marker_behind odd h
  rw [hm] at start
  have size : byteSize (u ++ [marker]) ≤ t.startOf m := by
    rw [byteSize_append]
    exact le_of_mem_places (List.mem_of_head? start.symm)
  obtain ⟨w, hw⟩ := splitAtByte_of_le (v := v) size
  have split : u ++ marker :: v = (u ++ [marker]) ++ v := by simp
  rw [rewritten, split, hw, List.count_append, List.count_append, count, List.count_cons_self]
  omega

end inString

/-- Inside a string, nothing is marked unless a marker stands outside strings behind the cursor, and
what is marked then is not the marker that was put in but one further on. -/
theorem marked_in_string (options : Options) (text : List Char) (offset : Nat)
    (odd : (kept options text offset).count '"' % 2 = 1) :
    let p := predict options text offset
    (p.marker = none ↔
      p.tree = none ∨ (outside true (resumed options text offset)).count marker = 0) ∧
    (p.marker = none → p.marked = none ∧ p.enclosingFilter = none ∧
      ∀ ix, p.markedType ix = none ∧ p.enclosingFilterType ix = none ∧ p.completions ix = []) ∧
    ∀ t m, p.tree = some t → p.marker = some m → t.shape? m = some .marker ∧
      (kept options text offset).count marker <
        (splitAtByte (t.startOf m) (rewriteKeywords p.candidate)).1.count marker := by
  intro p
  refine ⟨?_, Prediction.unmarked, fun t m ht hm => ?_⟩
  · cases ht : p.tree with
    | none =>
      rcases predict_cases options text offset with ⟨-, failed⟩ | ⟨k, u, -, -, tree, -⟩
      · simpa using failed
      · cases ht.symm.trans tree
    | some t => simpa using marker_eq_none_iff odd ht
  · obtain ⟨u, v, -, -, -, -, isMarker⟩ := marker_found ht
    exact ⟨isMarker m hm, count_lt_of_marker odd ht hm⟩

theorem marked_in_string_alone :
    let text := "\"()\"".toList
    let p := predict .standard text 2
    (kept .standard text 2).count '"' % 2 = 1 ∧
      p.tree = some ⟨#[⟨.string "(?)", ⟨0, 5⟩, none, false⟩], 0⟩ ∧ p.marker = none ∧
      ∀ ix, p.completions ix = [] := by
  intro text p
  have odd : (kept .standard text 2).count '"' % 2 = 1 := by decide +kernel
  have tree : p.tree = some ⟨#[⟨.string "(?)", ⟨0, 5⟩, none, false⟩], 0⟩ := by decide +kernel
  obtain ⟨iff, nothing, -⟩ := marked_in_string .standard text 2 odd
  have unmarked : p.marker = none := iff.2 (.inr (by decide +kernel))
  exact ⟨odd, tree, unmarked, fun ix => ((nothing unmarked).2.2 ix).2.2⟩

/-- A marker behind the string is taken for the one at the cursor. -/
theorem marked_beyond_string :
    let p := predict .standard "\"()\" & ?".toList 2
    (kept .standard "\"()\" & ?".toList 2).count '"' % 2 = 1 ∧
      p.candidate = "\"(?)\" & ?".toList ∧ p.marker = some 1 ∧ p.marked = some (.world none) := by
  decide +kernel

end Cursor

end InventoryQuery
