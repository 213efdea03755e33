import InventoryQuery.Proofs.Cursor.Source
import InventoryQuery.Proofs.Rendering.Bracketed

/-! What does not change a type: the spelling of a text, since types are read off the expression,
and a filter on a property, since a filtered phrase is looked up like the phrase itself. The second
holds up to two special cases, of which a bare property knows the one and a filtered one the
other. -/

namespace InventoryQuery

open Grammar Rewrite

/-- Texts that share their shape have the same type, or the same error. -/
theorem type_of_same_shape (a b : List Char) (t u : Tree) (ha : compile a = .ok t)
    (hb : compile b = .ok u) (h : t.rootExpr.sameShape u.rootExpr) (ix : Index) :
    ∃ r, t.typeOf? ix t.root = some r ∧ u.typeOf? ix u.root = some r := by
  have same : t.rootExpr = u.rootExpr :=
    (Expr.sameShape_iff (worded_of_compile ha) (worded_of_compile hb)).1 h
  refine ⟨_, typeOf?_root ha ix, ?_⟩
  rw [same]
  exact typeOf?_root hb ix

/-- The receiver is a row behind the phrase in the one table and a row before it in the other. -/
theorem type_of_same_shape_possessive :
    let t : Tree := ⟨#[⟨.phrase "x" none, ⟨0, 1⟩, some 1, true⟩, ⟨.phrase "y" none, ⟨7, 8⟩, none, false⟩,
      ⟨.property 0 1, ⟨0, 8⟩, none, false⟩], 2⟩
    let u : Tree := ⟨#[⟨.phrase "y" none, ⟨0, 1⟩, none, false⟩, ⟨.phrase "x" none, ⟨4, 5⟩, some 0, true⟩,
      ⟨.property 1 0, ⟨0, 5⟩, none, false⟩], 2⟩
    compile "x of a y".toList = .ok t ∧ compile "y's x".toList = .ok u ∧
      t.rootExpr.sameShape u.rootExpr ∧
      ∀ ix, ∃ r, t.typeOf? ix t.root = some r ∧ u.typeOf? ix u.root = some r := by
  intro t u
  have left : compile "x of a y".toList = .ok t := by decide +kernel
  have right : compile "y's x".toList = .ok u := by decide +kernel
  have shape : t.rootExpr.sameShape u.rootExpr := by rfl
  exact ⟨left, right, shape, type_of_same_shape _ _ t u left right shape⟩

namespace Grammar

/-- What a filter has been read in is filtered. -/
theorem Derives.more_selection {p : Part} {ts : List Token} {e : Expr} {n : Nat}
    (h : Derives p ts e n) : ∀ left, p = .more .selection left →
      ts = [] ∧ e = left ∨ ∃ source filter, e = .node (.whose source filter) := by
  induction h with
  | done =>
    intro _ same
    cases same
    exact .inl ⟨rfl, rfl⟩
  | filtered _ _ _ _ ih =>
    intro _ same
    cases same
    exact .inr ((ih _ rfl).elim (fun ⟨_, last⟩ => ⟨_, _, last⟩) id)
  | operator ho =>
    intro _ same
    cases same
    cases ho
  | _ => nofun

theorem Derives.reference_of_selection {ts : List Token} {e : Expr} {n : Nat}
    (h : Derives (.rule .selection) ts e n) (he : ∀ source filter, e ≠ .node (.whose source filter)) :
    Derives (.rule .reference) ts e n := by
  cases h with
  | pass hr => cases hr
  | list hr => cases hr
  | chain _ hx hd =>
    rcases hd.more_selection _ rfl with ⟨rfl, rfl⟩ | ⟨source, filter, same⟩
    · cases hd
      rwa [List.append_nil, Nat.max_zero]
    · exact absurd same (he source filter)

theorem Derives.primary_of_reference {ts : List Token} {e : Expr} {n : Nat}
    (h : Derives (.rule .reference) ts e n) (he : ∀ name argument, e ≠ .node (.phrase name argument)) :
    Derives (.rule .primary) ts e n := by
  cases h with
  | pass _ h => exact h
  | list hr => cases hr
  | chain hr => cases hr
  | phrase | applied => exact absurd rfl (he _ _)

end Grammar

theorem Expr.Primary.chosen {e : Expr} (h : e.Primary) : e.Chosen := by
  obtain ⟨s⟩ := e
  cases s <;> trivial

/-- A text that is a primary by itself can be a filter. -/
theorem derives_filter {text : List Char} {t : Tree} (h : compile text = .ok t)
    (form : t.rootExpr.Primary) : ∃ n, Derives (.rule .primary) (part text) t.rootExpr n := by
  obtain ⟨n, hd⟩ := SelectionText.selects ⟨t, h, rfl, form.chosen⟩
  refine ⟨n, (hd.reference_of_selection ?_).primary_of_reference ?_⟩ <;>
  · intro _ _ same
    rw [same] at form
    exact form

def whoseToken : Token := ⟨.whoseWord, "$whose".toList, 0⟩

/-- A text and what its filter is read from. -/
theorem contents_whose {text : List Char} {t : Tree} (h : compile text = .ok t) (q : List Char) :
    Token.contents (rewriteKeywords (text ++ " whose ".toList ++ q)) =
      reading (part text ++ [whoseToken]) ++ Token.contents (rewriteKeywords q) := by
  have split : text ++ " whose ".toList ++ q = text ++ ' ' :: ("whose".toList ++ ' ' :: q) := by simp
  have cut : Lexeme.next '$' "whose".toList = (.whoseWord, "whose".toList.length) := rfl
  rw [split, rewriteKeywords_whose (quotes_closed_of_compile h), reading_append, reading_part,
    List.append_assoc]
  exact Token.contents_joined cut (by decide) (by decide) (valid_of_compile h) (rewriteKeywords q)

/-- A text and what its receiver is read from. -/
theorem contents_of {text : List Char} {t : Tree} (h : compile text = .ok t) (q : List Char) :
    Token.contents (rewriteKeywords (text ++ " of ".toList ++ q)) =
      reading (part text ++ [Joint.of.token]) ++ Token.contents (rewriteKeywords q) := by
  have split : text ++ " of ".toList ++ q = text ++ ' ' :: (Joint.of.word ++ ' ' :: q) := by
    simp [Joint.word]
  rw [split, rewriteKeywords_joined .of (quotes_closed_of_compile h),
    contents_joint .of (valid_of_compile h), reading_append, reading_part, List.append_assoc]
  rfl

/-- A phrase, a filter for it and its receiver, each of them a text by itself. -/
structure Filterable (phrase filter receiver : List Char) (p f r : Tree) (name : String)
    (argument : Option Expr) : Prop where
  phrase_text : compile phrase = .ok p
  filter_text : compile filter = .ok f
  receiver_text : compile receiver = .ok r
  named : p.rootExpr = .node (.phrase name argument)
  chosen : f.rootExpr.Primary
  accessible : r.rootExpr.Accessible

namespace Filterable

variable {phrase filter receiver : List Char} {p f r : Tree} {name : String}
  {argument : Option Expr} (h : Filterable phrase filter receiver p f r name argument)

include h

theorem rootExpr_property {u : Tree}
    (hu : compile (phrase ++ " of ".toList ++ receiver) = .ok u) :
    u.rootExpr = .node (.property (.node (.phrase name argument)) r.rootExpr) := by
  obtain ⟨n, hx⟩ := SelectionText.selects ⟨p, h.phrase_text, h.named, trivial⟩
  obtain ⟨m, hy⟩ := derives_accessible h.receiver_text h.accessible
  refine rootExpr_of_reading hu ?_ ((Derives.sourced (o := Joint.of.token) rfl hx hy).loosened
    (by decide))
  rw [contents_of h.phrase_text, ← reading_part, ← reading_append, List.append_assoc]
  rfl

theorem rootExpr_filtered {v : Tree}
    (hv : compile (phrase ++ " whose ".toList ++ filter ++ " of ".toList ++ receiver) = .ok v) :
    v.rootExpr =
      .node (.property (.node (.whose (.node (.phrase name argument)) f.rootExpr)) r.rootExpr) := by
  obtain ⟨n, hx⟩ := SelectionText.selects ⟨p, h.phrase_text, h.named, trivial⟩
  obtain ⟨k, hz⟩ := derives_filter h.filter_text h.chosen
  obtain ⟨m, hy⟩ := derives_accessible h.receiver_text h.accessible
  have selected := Derives.chain (r := .selection) rfl (hx.reference_of_selection (by simp))
    (.filtered (w := whoseToken) rfl hz .done)
  refine rootExpr_of_reading hv ?_ ((Derives.sourced (o := Joint.of.token) rfl selected hy).loosened
    (by decide))
  have split : phrase ++ " whose ".toList ++ filter ++ " of ".toList ++ receiver =
      phrase ++ " whose ".toList ++ (filter ++ " of ".toList ++ receiver) := by simp
  rw [split, contents_whose h.phrase_text, contents_of h.filter_text, ← reading_part, ← reading_append, ← reading_append]
  simp

end Filterable

open InventoryQuery.Expr in
/-- A filter leaves the type of a property as it is, unless the name is `true` or `false`, which only
a filtered phrase knows, or the property is an item of a tuple, which only a bare phrase finds. -/
theorem filtered_type (phrase filter receiver : List Char) (p f r u v : Tree) (name : String)
    (argument : Option Expr) (hp : compile phrase = .ok p) (hf : compile filter = .ok f)
    (hr : compile receiver = .ok r) (named : p.rootExpr = .node (.phrase name argument))
    (chosen : f.rootExpr.Primary) (accessible : r.rootExpr.Accessible)
    (hu : compile (phrase ++ " of ".toList ++ receiver) = .ok u)
    (hv : compile (phrase ++ " whose ".toList ++ filter ++ " of ".toList ++ receiver) = .ok v)
    (ix : Index) :
    ∃ owner bare filtered, r.typeOf? ix r.root = some owner ∧ u.typeOf? ix u.root = some bare ∧
      v.typeOf? ix v.root = some filtered ∧
      (isTruth name = false → itemOf? owner name argument = none →
        ∀ ty, filtered = .ok ty ↔ bare = .ok ty) ∧
      (isTruth name → filtered = .ok .boolean ∧ bare = lookedUp ix owner name argument) ∧
      ∀ item, itemOf? owner name argument = some item →
        filtered = lookedUp ix owner name argument ∧ bare = item := by
  refine ⟨_, _, _, typeOf?_root hr ix, typeOf?_root hu ix, typeOf?_root hv ix, ?_⟩
  have parts : Filterable phrase filter receiver p f r name argument :=
    ⟨hp, hf, hr, named, chosen, accessible⟩
  rw [parts.rootExpr_property hu, parts.rootExpr_filtered hv, type_bare, type_filtered]
  generalize r.rootExpr.type ix none false = owner
  refine ⟨fun truth plain ty => ?_, fun truth => ⟨if_pos truth, ?_⟩, fun item found => ⟨?_, ?_⟩⟩
  · rw [truth, plain, if_neg Bool.false_ne_true, Option.getD_none, lookedUp_eq_ok_iff]
  · rw [itemOf?_of_isTruth owner argument truth, Option.getD_none]
  · obtain ⟨items, digits, rfl, called, rfl⟩ := itemOf?_eq_some found
    rw [if_neg (by rw [isTruth, called]; decide)]
    rfl
  · rw [found, Option.getD_some]

open InventoryQuery.Expr in
theorem filtered_type_numeral :
    let p : Tree := ⟨#[⟨.phrase "x" none, ⟨0, 1⟩, none, false⟩], 0⟩
    let f : Tree := ⟨#[⟨.number "1", ⟨0, 1⟩, none, false⟩], 0⟩
    let r : Tree := ⟨#[⟨.phrase "y" none, ⟨0, 1⟩, none, false⟩], 0⟩
    let u : Tree := ⟨#[⟨.phrase "x" none, ⟨0, 1⟩, some 1, true⟩, ⟨.phrase "y" none, ⟨6, 7⟩, none, false⟩,
      ⟨.property 0 1, ⟨0, 7⟩, none, false⟩], 2⟩
    let v : Tree := ⟨#[⟨.phrase "x" none, ⟨0, 1⟩, some 3, true⟩, ⟨.number "1", ⟨9, 10⟩, some 0, false⟩,
      ⟨.whose 0 1, ⟨0, 10⟩, some 3, true⟩, ⟨.phrase "y" none, ⟨15, 16⟩, none, false⟩,
      ⟨.property 2 3, ⟨0, 16⟩, none, false⟩], 4⟩
    compile ['x'] = .ok p ∧ compile ['1'] = .ok f ∧ compile ['y'] = .ok r ∧
      p.rootExpr = .node (.phrase "x" none) ∧ f.rootExpr.Primary ∧ r.rootExpr.Accessible ∧
      compile (['x'] ++ " of ".toList ++ ['y']) = .ok u ∧
      compile (['x'] ++ " whose ".toList ++ ['1'] ++ " of ".toList ++ ['y']) = .ok v ∧
      ∀ ix, ∃ owner bare filtered, r.typeOf? ix r.root = some owner ∧ u.typeOf? ix u.root = some bare ∧
        v.typeOf? ix v.root = some filtered ∧
        (isTruth "x" = false → itemOf? owner "x" none = none →
          ∀ ty, filtered = .ok ty ↔ bare = .ok ty) ∧
        (isTruth "x" → filtered = .ok .boolean ∧ bare = lookedUp ix owner "x" none) ∧
        ∀ item, itemOf? owner "x" none = some item →
          filtered = lookedUp ix owner "x" none ∧ bare = item := by
  intro p f r u v
  have phrase : compile ['x'] = .ok p := by decide +kernel
  have filter : compile ['1'] = .ok f := by decide +kernel
  have receiver : compile ['y'] = .ok r := by decide +kernel
  have bare : compile (['x'] ++ " of ".toList ++ ['y']) = .ok u := by decide +kernel
  have filtered : compile (['x'] ++ " whose ".toList ++ ['1'] ++ " of ".toList ++ ['y']) = .ok v := by
    decide +kernel
  exact ⟨phrase, filter, receiver, rfl, trivial, .inl trivial, bare, filtered,
    filtered_type _ _ _ p f r u v "x" none phrase filter receiver rfl trivial (.inl trivial) bare
      filtered⟩

/-- The item of a tuple is not found through a filter, and `true` is looked up without one. -/
theorem filtered_type_special :
    let answer (text : String) := (compile text.toList).toOption.bind fun t =>
      (t.typeOf? (.bare .everything) t.root).map (Except.map Ty.display)
    answer "item 0 of (1, 2)" = some (.ok "number") ∧
      answer "item 0 whose (true) of (1, 2)" =
        some (.error (.lookup (.noProperty "(number, number)" "item" (some "number")))) ∧
    answer "true of 1" = some (.error (.lookup (.noProperty "number" "true" none))) ∧
      answer "true whose (1) of 1" = some (.ok "boolean") := by
  decide +kernel

end InventoryQuery
