import InventoryQuery.Proofs.Cursor.Marker
import InventoryQuery.Proofs.Text.Segments
import InventoryQuery.Proofs.Token.Ordered

/-! String literals from the text to the tree. Rewriting leaves what stands between double quotes as
it is, a finished token has two quotes around it or none, and every string token is a node of its
own. So the strings of the tree, in the order of their places, are the quoted segments of the text
as it was typed. -/

namespace InventoryQuery

open Grammar

namespace Rewrite

/-- The rules change nothing between quotes, and what they change outside has no quotes. -/
theorem quotedSegments_applyFrom {rules : List Rewrite} (hp : ∀ r ∈ rules, r.Plain) (inString fresh : Bool)
    (cs : List Char) (open? : Option (List Char)) (inside : open?.isSome = inString) :
    quotedSegments open? (applyFrom rules 0 inString fresh cs) = quotedSegments open? cs := by
  induction inString, fresh, cs using pass_induction hp generalizing open? with
  | nil => rfl
  | copied inString fresh c cs copies ih =>
    rw [applyFrom_copied copies]
    refine quotedSegments_cons_congr (ih _ ?_)
    rw [isSome_afterChar, inside]
  | replaced r w rest taken ih =>
    obtain rfl : open? = none := Option.isNone_iff_eq_none.1 (Option.isSome_eq_false_iff.1 inside)
    rw [taken.applyFrom_eq, quotedSegments_append_of_not_mem (hp r taken.mem).2.2,
      quotedSegments_append_of_not_mem (taken.unquoted hp), ih _ none rfl]

end Rewrite

theorem quotedSegments_rewriteKeywords (text : List Char) :
    quotedSegments none (rewriteKeywords text) = quotedSegments none text := by
  have kept {rules : List Rewrite} (hp : ∀ r ∈ rules, r.Plain) (cs : List Char) :
      quotedSegments none (Rewrite.applyAll rules cs) = quotedSegments none cs :=
    Rewrite.quotedSegments_applyFrom hp false true cs none rfl
  rw [rewriteKeywords, kept Rewrite.plain_writeKeywords, kept Rewrite.plain_dropArticles]

namespace Lexeme

/-- The strings among the tokens are the quoted segments. -/
theorem strings_allFrom {text : List Char} {offset : Nat}
    (valid : ∀ t ∈ allFrom offset 0 text, t.kind ≠ .invalid) :
    ((allFrom offset 0 text).filter (·.kind = .string)).map (unquoted ·.text) =
      (quotedSegments none text).map String.ofList := by
  induction text using text_induction generalizing offset with
  | nil => rfl
  | cons c cs ih =>
    rw [allFrom_cons] at valid ⊢
    have later := ih fun t ht => valid t (List.mem_cons_of_mem _ ht)
    have split : c :: cs = (c :: cs.take (next c cs).2) ++ cs.drop (next c cs).2 := by
      rw [List.cons_append, List.take_append_drop]
    conv_rhs => rw [split]
    rcases next_quotes (valid _ List.mem_cons_self) with ⟨kind, body, clean, text⟩ | ⟨kind, clean⟩
    · rw [List.filter_cons_of_pos (by simpa using kind), List.map_cons, later, text,
        quotedSegments_string clean, List.map_cons]
      simp [unquoted]
    · rw [List.filter_cons_of_neg (by simpa using kind), later, quotedSegments_append_of_not_mem clean]

end Lexeme

/-- The string tokens of a text. -/
theorem strings_tokens {text : List Char} (valid : ∀ t ∈ lexemes text, t.kind ≠ .invalid) :
    let strings := (tokens text).dropLast.filter (·.kind = .string)
    strings.map (unquoted ·.text) = (quotedSegments none text).map String.ofList ∧
      strings.Pairwise (·.start < ·.start) := by
  have same : (tokens text).dropLast.filter (·.kind = .string) =
      (lexemes text).filter (·.kind = .string) := by
    refine (joins_phrases text).filter_eq (fun t phrase => by simp [phrase]) ?_
    rintro t - (h | h) <;> simp [h]
  have ordered := (ordered_tokens text).sublist (List.dropLast_sublist _)
  refine ⟨?_, .filter _ (ordered.imp_of_mem fun ht _ before => ?_)⟩
  · rw [same]
    exact Lexeme.strings_allFrom valid
  · exact Nat.lt_of_lt_of_le (start_lt_stop_of_mem_tokens _ ht) before

def Node.string? (n : Node) : Option (String × Nat) :=
  match n.shape with
  | .string value => some (value, n.span.start)
  | _ => none

theorem filterMap_string?_nodes (ns : List Node) :
    ns.filterMap Node.string? = (ns.filterMap Node.atom?).filterMap fun a =>
      match a.1 with
      | .string value => some (value, a.2)
      | _ => none := by
  rw [List.filterMap_filterMap]
  refine List.filterMap_congr fun n _ => ?_
  cases hs : n.shape <;> simp [Node.string?, Node.atom?, Shape.isAtom, hs]

theorem filterMap_string?_tokens (ts : List Token) :
    ((ts.filterMap atomOf?).filterMap fun a =>
      match a.1 with
      | .string value => some (value, a.2)
      | _ => none) = (ts.filter (·.kind = .string)).map fun t => (unquoted t.text, t.start) := by
  rw [List.filterMap_filterMap, ← List.filterMap_eq_map, List.filterMap_filter]
  refine List.filterMap_congr fun t _ => ?_
  cases hk : t.kind <;> simp [atomOf?, hk]

/-- The string nodes of a tree are the string tokens of the rewritten text. -/
theorem strings_of_compile {text : List Char} {t : Tree} (h : compile text = .ok t) :
    (t.nodes.toList.filterMap Node.string?).map (·.1) = (quotedSegments none text).map String.ofList ∧
      (t.nodes.toList.filterMap Node.string?).Pairwise (·.2 < ·.2) := by
  obtain ⟨u, hu, rfl⟩ := exists_parse_of_compile h
  obtain ⟨values, ordered⟩ := strings_tokens (valid_of_compile h)
  rw [Tree.filterMap_withScopes (fun _ => rfl), filterMap_string?_nodes, atoms_of_parse hu,
    filterMap_string?_tokens, List.map_map, List.pairwise_map, ← quotedSegments_rewriteKeywords]
  exact ⟨values, ordered⟩

theorem map_filter_isSome {α β : Type} (f : α → Option β) (xs : List α) :
    (xs.filter fun x => (f x).isSome).map f = (xs.filterMap f).map some := by
  induction xs with
  | nil => rfl
  | cons x xs ih => cases h : f x <;> simp [h, ih]

namespace Tree

variable (t : Tree)

def string? (id : NodeId) : Option (String × Nat) := t.nodes[id]?.bind Node.string?

theorem getElem?_ids : t.ids.map (t.nodes[·]?) = t.nodes.toList.map some := by
  refine List.ext_getElem (by simp [ids, size]) fun i hi hj => ?_
  simp [ids]

theorem filterMap_string?_ids : t.ids.filterMap t.string? = t.nodes.toList.filterMap Node.string? := by
  have rows : t.ids.filterMap t.string? = (t.ids.map (t.nodes[·]?)).filterMap (·.bind Node.string?) := by
    rw [List.filterMap_map]
    rfl
  rw [rows, getElem?_ids, List.filterMap_map]
  rfl

theorem string?_eq_some {id : NodeId} {value : String} {start : Nat}
    (h : t.string? id = some (value, start)) :
    t.shape? id = some (.string value) ∧ t.startOf id = start := by
  obtain ⟨n, hn, hs⟩ := Option.bind_eq_some_iff.1 h
  unfold Node.string? at hs
  split at hs
  · rename_i v shape
    cases hs
    exact ⟨by rw [shape?, hn, Option.map_some, shape], by rw [startOf, hn]; rfl⟩
  · cases hs

theorem isSome_string?_iff (id : NodeId) :
    (t.string? id).isSome ↔ ∃ value, t.shape? id = some (.string value) := by
  constructor
  · intro h
    obtain ⟨⟨value, start⟩, hs⟩ := Option.isSome_iff_exists.1 h
    exact ⟨value, (t.string?_eq_some hs).1⟩
  · rintro ⟨value, h⟩
    obtain ⟨n, hn, shape⟩ := Option.map_eq_some_iff.1 h
    simp [string?, hn, Node.string?, shape]

end Tree

/-- The strings of the tree, in the order in which they start, are the quoted segments of the text. -/
theorem string_literals_verbatim (text : List Char) (t : Tree) (h : compile text = .ok t) :
    ∃ ids : List NodeId, (∀ id, id ∈ ids ↔ ∃ value, t.shape? id = some (.string value)) ∧
      ids.Pairwise (t.startOf · < t.startOf ·) ∧
      ids.map t.shape? = (quotedSegments none text).map fun body => some (.string (String.ofList body)) := by
  obtain ⟨values, ordered⟩ := strings_of_compile h
  rw [← Tree.filterMap_string?_ids] at values ordered
  have rows := map_filter_isSome t.string? t.ids
  generalize t.ids.filterMap t.string? = found at values ordered rows
  refine ⟨t.ids.filter fun id => (t.string? id).isSome, fun id => ?_, ?_, ?_⟩
  · rw [List.mem_filter, Tree.isSome_string?_iff, and_iff_right_iff_imp]
    rintro ⟨value, hs⟩
    obtain ⟨n, hn, -⟩ := Option.map_eq_some_iff.1 hs
    exact List.mem_range.2 (Array.getElem?_eq_some_iff.1 hn).1
  · have apart : ((t.ids.filter fun id => (t.string? id).isSome).map t.string?).Pairwise
        fun a b => ∀ x ∈ a, ∀ y ∈ b, x.2 < y.2 := by
      rw [rows, List.pairwise_map]
      exact ordered.imp fun hxy x hx y hy => by cases hx; cases hy; exact hxy
    rw [List.pairwise_map] at apart
    refine apart.imp_of_mem fun ha hb hab => ?_
    obtain ⟨x, hx⟩ := Option.isSome_iff_exists.1 (List.mem_filter.1 ha).2
    obtain ⟨y, hy⟩ := Option.isSome_iff_exists.1 (List.mem_filter.1 hb).2
    rw [(t.string?_eq_some hx).2, (t.string?_eq_some hy).2]
    exact hab x hx y hy
  · have shapes : (t.ids.filter fun id => (t.string? id).isSome).map t.shape? =
        ((t.ids.filter fun id => (t.string? id).isSome).map t.string?).map
          (Option.map fun found => .string found.1) := by
      rw [List.map_map]
      refine List.map_congr_left fun id hid => ?_
      obtain ⟨x, hx⟩ := Option.isSome_iff_exists.1 (List.mem_filter.1 hid).2
      rw [Function.comp, hx, (t.string?_eq_some hx).1, Option.map_some]
    have split : (quotedSegments none text).map
          (fun body => (some (.string (String.ofList body)) : Option (Shape NodeId))) =
        ((quotedSegments none text).map String.ofList).map fun value => some (.string value) := by
      rw [List.map_map]
      rfl
    rw [shapes, rows, split, ← values, List.map_map, List.map_map]
    rfl

/-- Neither the article nor the parenthesis nor the keyword in the literal is touched. -/
theorem string_literals_verbatim_keyword :
    let text := "\"a (is  not\" -> an x \"?\"".toList
    let t : Tree := ⟨#[⟨.string "a (is  not", ⟨0, 12⟩, none, false⟩, ⟨.string "?", ⟨19, 22⟩, some 0, false⟩,
      ⟨.phrase "x" (some 1), ⟨17, 22⟩, some 0, true⟩, ⟨.property 2 0, ⟨0, 22⟩, none, false⟩], 3⟩
    compile text = .ok t ∧
    ∃ ids : List NodeId, (∀ id, id ∈ ids ↔ ∃ value, t.shape? id = some (.string value)) ∧
      ids.Pairwise (t.startOf · < t.startOf ·) ∧
      ids.map t.shape? = (quotedSegments none text).map fun body => some (.string (String.ofList body)) := by
  intro text t
  have compiled : compile text = .ok t := by decide +kernel
  exact ⟨compiled, string_literals_verbatim text t compiled⟩

end InventoryQuery
