import InventoryQuery.Proofs.Rendering.Stable
import InventoryQuery.Proofs.Token.Parens
import InventoryQuery.Proofs.Typing.Transparency

/-! Items of a tuple are addressed by position. The texts of the items are read one by one between
the commas, as if each stood alone, so the tuple has their types in their order; `item` with a
numeral picks one of these, with `of` as well as behind an arrow. -/

namespace InventoryQuery

open Grammar Rewrite

/-- The forms that a tuple can have as items without parentheses around them. -/
def Expr.Single : Expr → Prop
  | .node (.tuple _) | .node (.collection _) | .node (.conditional ..) => False
  | _ => True

theorem Expr.Single.rank_le {e : Expr} (h : e.Single) : e.rank ≤ Rule.disjunction.looseness := by
  obtain ⟨s⟩ := e
  cases s with
  | tuple | collection | conditional => exact h.elim
  | binary operator => cases operator <;> simp [Expr.rank, InfixOperator.rank, Rule.looseness]
  | _ => simp [Expr.rank, Rule.looseness]

def SingleText (p : List Char) (e : Expr) : Prop :=
  ∃ t, compile p = .ok t ∧ t.rootExpr = e ∧ e.Single

theorem SingleText.derives {p : List Char} {e : Expr} (h : SingleText p e) :
    ∃ n, Derives (.rule .disjunction) (part p) e n := by
  obtain ⟨t, ht, rfl, single⟩ := h
  obtain ⟨u, hu, same⟩ := compile_eq_ok ht
  rw [same] at single ⊢
  obtain ⟨n, -, -, hd, -⟩ := derives_of_parse hu
  exact ⟨n, hd.tightened (by decide) single.rank_le⟩

def tupleText (ps : List (List Char)) : List Char := '(' :: (" , ".toList.intercalate ps ++ [')'])

def comma : Token := ⟨.comma, [','], 0⟩

def opened : Token := ⟨.leftParen, ['('], 0⟩

def closer : Token := ⟨.rightParen, [')'], 0⟩

theorem rewriteKeywords_comma {p : List Char} (closed : quoteOpen false p = false) (q : List Char) :
    rewriteKeywords (p ++ " , ".toList ++ q) =
      rewriteKeywords p ++ ' ' :: ([','] ++ ' ' :: rewriteKeywords q) := by
  have facts : Apart dropArticles [','] ∧ Apart writeKeywords [','] ∧
      applyAll dropArticles [','] = [','] ∧ rewriteKeywords [','] = [','] := by
    decide +kernel
  obtain ⟨articles, keywords, same, written⟩ := facts
  have split : p ++ " , ".toList ++ q = p ++ ' ' :: ([','] ++ ' ' :: q) := by simp
  rw [split, rewriteKeywords_between (by decide) (by decide) articles keywords same closed, written]

/-- The items are read one by one, up to the parenthesis that ends the tuple. -/
theorem contents_items {p : List Char} {ps : List (List Char)}
    (h : ∀ r ∈ p :: ps, ∃ t, compile r = .ok t) (q : List Char) :
    Token.contents (rewriteKeywords (" , ".toList.intercalate (p :: ps) ++ ')' :: q)) =
      reading (part p ++ (ps.map part).flatMap (comma :: ·) ++ [closer]) ++
        Token.contents (rewriteKeywords q) := by
  induction ps generalizing p with
  | nil =>
    obtain ⟨t, ht⟩ := h p List.mem_cons_self
    rw [List.intercalate_singleton, rewriteKeywords_append_paren (.inr rfl) (quotes_closed_of_compile ht),
      Token.contents_append_paren (.inr rfl) (valid_of_compile ht), ← reading_part]
    simp [reading, closer, Token.parenKind]
  | cons r ps ih =>
    obtain ⟨t, ht⟩ := h p List.mem_cons_self
    have cut : Lexeme.next ',' [] = (.comma, ([] : List Char).length) := rfl
    rw [List.intercalate_cons_cons, List.append_assoc, rewriteKeywords_comma (quotes_closed_of_compile ht),
      Token.contents_joined cut (by decide) (by decide) (valid_of_compile ht),
      ih fun r hr => h r (List.mem_cons_of_mem p hr), ← reading_part]
    simp [reading, comma]

theorem contents_tuple {p : List Char} {ps : List (List Char)}
    (h : ∀ r ∈ p :: ps, ∃ t, compile r = .ok t) (q : List Char) :
    Token.contents (rewriteKeywords (tupleText (p :: ps) ++ q)) =
      reading (opened :: (part p ++ (ps.map part).flatMap (comma :: ·) ++ [closer])) ++
        Token.contents (rewriteKeywords q) := by
  have split : tupleText (p :: ps) ++ q = [] ++ '(' :: (" , ".toList.intercalate (p :: ps) ++ ')' :: q) := by
    simp [tupleText]
  have nothing : rewriteKeywords [] = [] := rfl
  rw [split, rewriteKeywords_append_paren (.inl rfl) rfl, nothing,
    Token.contents_append_paren (.inl rfl) (by decide), contents_items h, reading_cons]
  rfl

theorem derives_items {ps : List (List Char)} {es : List Expr} (hs : List.Forall₂ SingleText ps es)
    (done : List Expr) :
    ∃ n, Derives (.items .tuple done) ((ps.map part).flatMap (comma :: ·)) (Rule.tuple.joined (done ++ es)) n := by
  induction hs generalizing done with
  | nil => exact ⟨0, by simpa using Derives.noItem⟩
  | @cons p e ps es h _ ih =>
    obtain ⟨n, hx⟩ := h.derives
    obtain ⟨m, hd⟩ := ih (done ++ [e])
    exact ⟨_, by simpa using Derives.item (r := .tuple) (t := comma) rfl hx hd⟩

theorem derives_tuple {p : List Char} {ps : List (List Char)} {e : Expr} {es : List Expr} (h : SingleText p e)
    (hs : List.Forall₂ SingleText ps es) (more : es ≠ []) :
    ∃ n, Derives (.rule .primary) (opened :: (part p ++ (ps.map part).flatMap (comma :: ·) ++ [closer]))
      (.node (.parens (.node (.tuple (e :: es))))) n := by
  obtain ⟨n, hx⟩ := h.derives
  obtain ⟨m, hd⟩ := derives_items hs [e]
  have listed : Rule.tuple.joined ([e] ++ es) = .node (.tuple (e :: es)) := by
    cases es with
    | nil => exact absurd rfl more
    | cons f es => rfl
  rw [listed] at hd
  exact ⟨_, .parens rfl rfl ((Derives.list (r := .tuple) rfl hx hd).loosened (by decide))⟩

def itemText (digits : List Char) : List Char := "item ".toList ++ digits

def askedItem (digits : List Char) : Expr :=
  .node (.phrase "item" (some (.node (.number (String.ofList digits)))))

theorem derives_item (digits : List Char) :
    Derives (.rule .selection) (askedItem digits).tokens (askedItem digits) 1 := by
  have numeral : Derives (.rule .primary) [⟨.numeral, digits, 0⟩] (.node (.number (String.ofList digits))) 0 :=
    .leaf rfl
  have called : phraseName "item".toList = "item" := by decide +kernel
  have applied := Derives.applied (p := ⟨.phrase, "item".toList, 0⟩) rfl numeral
  rw [called] at applied
  simpa [askedItem, Expr.tokens] using applied.loosen (r := .selection)

theorem selectionText_item {digits : List Char} (h : IsNumeral digits) :
    SelectionText (itemText digits) (askedItem digits) := by
  have word : IsName "item".toList := .word ⟨'i', "tem".toList, rfl, rfl, List.all_eq_true.1 rfl⟩
  have free : ∀ w ∈ blankSeparated "item".toList, w ∉ reservedWords := by decide +kernel
  have worded : (askedItem digits).Everywhere Shape.Worded :=
    .node ⟨word, by rintro _ ⟨⟩; trivial⟩
      (List.forall_mem_singleton.2 (.node (by simpa [Shape.Worded] using h) nofun))
  have clear : (askedItem digits).Everywhere Shape.Clear :=
    .node free (List.forall_mem_singleton.2 (.node trivial nofun))
  have written : (askedItem digits).display.toList = itemText digits := by
    simp [askedItem, Expr.display, itemText]
  have read := Expr.contents_display (worded.and clear)
  rw [written, ← reading_part] at read
  have hd := ((derives_item digits).loosened (r := .expression) (by decide)).of_texts read
  have low : (askedItem digits).height ≤ maxHeight := by
    simp [askedItem, Expr.height, Expr.heightBelow, maxHeight]
  rcases parse_of_derives hd with ⟨-, -, root, s, parsed, holds⟩ | ⟨deep, -⟩
  · refine ⟨Tree.withScopes ⟨s.nodes, root⟩, by rw [compile, parsed]; rfl, ?_, trivial⟩
    rw [Tree.rootExpr_withScopes, holds.rootExpr]
  · rcases deep with nested | high
    · exact absurd nested (by decide)
    · exact absurd high (Nat.not_lt.2 low)

/-- An item of a tuple, however the source is attached. -/
def itemOfTuple (digits : List Char) (es : List Expr) : Expr :=
  .node (.property (askedItem digits) (.node (.parens (.node (.tuple es)))))

section rootExpr

variable {ps : List (List Char)} {es : List Expr} (hs : List.Forall₂ SingleText ps es) (two : 2 ≤ ps.length)
  {digits : List Char} (numeral : IsNumeral digits) {t : Tree}

include hs two

/-- What is read of a tuple, whatever follows it. -/
theorem exists_tuple : ∃ c n, Derives (.rule .primary) c (.node (.parens (.node (.tuple es)))) n ∧
    ∀ q, Token.contents (rewriteKeywords (tupleText ps ++ q)) =
      reading c ++ Token.contents (rewriteKeywords q) := by
  have texts : ∀ p ∈ ps, ∃ t, compile p = .ok t :=
    ((List.forall₂_and_left (R := SingleText) ps es).1 (hs.imp fun _ _ h => ⟨h.imp fun _ => And.left, h⟩)).1
  cases hs with
  | nil => cases two
  | @cons p e ps es h hs =>
    have more : es ≠ [] := List.ne_nil_of_length_pos (hs.length_eq ▸ Nat.le_of_succ_le_succ two)
    obtain ⟨n, hd⟩ := derives_tuple h hs more
    exact ⟨_, n, hd, contents_tuple texts⟩

include numeral

theorem rootExpr_item_of (ht : compile (itemText digits ++ " of ".toList ++ tupleText ps) = .ok t) :
    t.rootExpr = itemOfTuple digits es := by
  obtain ⟨c, n, hy, read⟩ := exists_tuple hs two
  have item := selectionText_item numeral
  obtain ⟨m, hx⟩ := item.selects
  obtain ⟨u, hu, -⟩ := item
  have source := hy.loosened (r := .property) (by decide)
  refine rootExpr_of_reading ht ?_ ((Derives.sourced (o := Joint.of.token) rfl hx source).loosened (by decide))
  have alone := read []
  rw [List.append_nil] at alone
  have nothing : Token.contents (rewriteKeywords []) = [] := rfl
  rw [contents_of hu, alone, nothing, List.append_nil, ← reading_append, List.append_assoc]
  rfl

theorem rootExpr_arrow_item (ht : compile (tupleText ps ++ " -> ".toList ++ itemText digits) = .ok t) :
    t.rootExpr = itemOfTuple digits es := by
  obtain ⟨c, n, hy, read⟩ := exists_tuple hs two
  obtain ⟨m, hx⟩ := (selectionText_item numeral).selects
  have source := hy.loosened (r := .selection) (by decide)
  have accessed := Derives.chain (r := .property) rfl source (.arrow (w := Joint.arrow.token) rfl hx .done)
  refine rootExpr_of_reading ht ?_ (accessed.loosened (by decide))
  have split : " -> ".toList ++ itemText digits = [] ++ ' ' :: (Joint.arrow.word ++ ' ' :: itemText digits) := by
    simp [Joint.word]
  rw [List.append_assoc, read, split, rewriteKeywords_joined .arrow rfl, contents_joint .arrow (by decide +kernel),
    ← reading_part (itemText digits), List.append_nil, reading_append]
  rfl

end rootExpr

def ItemText (ix : Index) (p : List Char) (ty : Ty) : Prop :=
  ∃ t, compile p = .ok t ∧ t.rootExpr.Single ∧ t.typeOf? ix t.root = some (.ok ty)

def itemAt (tys : List Ty) (n : Nat) : Answer :=
  match tys[n]? with
  | some ty => .ok ty
  | none => .error (.noItem n tys.length)

theorem exists_exprs {ix : Index} {ps : List (List Char)} {tys : List Ty}
    (hs : List.Forall₂ (ItemText ix) ps tys) :
    ∃ es, List.Forall₂ SingleText ps es ∧ Expr.typeAll ix es none = .ok tys := by
  induction hs with
  | nil => exact ⟨[], .nil, rfl⟩
  | cons h _ ih =>
    obtain ⟨t, ht, single, typed⟩ := h
    obtain ⟨es, parts, types⟩ := ih
    have type : t.rootExpr.type ix none false = .ok _ := Option.some.inj ((typeOf?_root ht ix).symm.trans typed)
    refine ⟨t.rootExpr :: es, .cons ⟨t, ht, rfl, single⟩ parts, ?_⟩
    rw [Expr.typeAll, type, types]
    rfl

theorem type_itemOfTuple {ix : Index} {digits : List Char} {es : List Expr} {tys : List Ty}
    (types : Expr.typeAll ix es none = .ok tys) (small : decimalValue digits < wordLimit) :
    (itemOfTuple digits es).type ix none false = itemAt tys (decimalValue digits) := by
  have source : (Expr.node (.parens (.node (.tuple es)))).type ix none false = .ok (.tuple tys) := by
    rw [Expr.type, Expr.type, types]
    rfl
  have called : lowered "item" = "item" := by decide +kernel
  have found : Expr.tupleItem? (.tuple tys) "item" (some (.node (.number (String.ofList digits)))) =
      some (itemAt tys (decimalValue digits)) := by
    simp only [Expr.tupleItem?, called, if_true, Option.map_some, Expr.shape, String.toList_ofList, small, itemAt]
    cases tys[decimalValue digits]? <;> rfl
  rw [itemOfTuple, askedItem, Expr.type_bare, source, Expr.itemOf?]
  simp only [Except.toOption, Option.bind_some, found, Option.getD_some]

theorem item_by_position (ix : Index) (ps : List (List Char)) (tys : List Ty) (digits : List Char)
    (two : 2 ≤ ps.length) (items : List.Forall₂ (ItemText ix) ps tys) (numeral : IsNumeral digits)
    (small : decimalValue digits < wordLimit) :
    ∀ text ∈ [itemText digits ++ " of ".toList ++ tupleText ps, tupleText ps ++ " -> ".toList ++ itemText digits],
      ∀ t, compile text = .ok t →
        (∀ ty, tys[decimalValue digits]? = some ty → t.typeOf? ix t.root = some (.ok ty)) ∧
        (ps.length ≤ decimalValue digits →
          t.typeOf? ix t.root = some (.error (.noItem (decimalValue digits) ps.length))) := by
  obtain ⟨es, parts, types⟩ := exists_exprs items
  have answer {t : Tree} {text : List Char} (ht : compile text = .ok t)
      (root : t.rootExpr = itemOfTuple digits es) :
      t.typeOf? ix t.root = some (itemAt tys (decimalValue digits)) := by
    rw [typeOf?_root ht, root, type_itemOfTuple types small]
  intro text written t ht
  have typed : t.typeOf? ix t.root = some (itemAt tys (decimalValue digits)) := by
    rcases List.mem_pair.1 written with rfl | rfl
    · exact answer ht (rootExpr_item_of parts two numeral ht)
    · exact answer ht (rootExpr_arrow_item parts two numeral ht)
  refine ⟨fun ty there => ?_, fun beyond => ?_⟩
  · rw [typed, itemAt, there]
  · rw [items.length_eq] at beyond ⊢
    rw [typed, itemAt, List.getElem?_eq_none beyond]

/-- A comma in a string and one in parentheses, a zero in front of the numeral, and a place beyond the
end. -/
theorem item_by_position_pair :
    let ix := Index.bare .everything
    let ps := ["\"a, b\"".toList, "(2, 3)".toList]
    let tys := [Ty.string, .tuple [.number, .number]]
    let texts (digits : List Char) :=
      [itemText digits ++ " of ".toList ++ tupleText ps, tupleText ps ++ " -> ".toList ++ itemText digits]
    2 ≤ ps.length ∧ List.Forall₂ (ItemText ix) ps tys ∧
      (∀ digits ∈ ["01".toList, "7".toList], IsNumeral digits ∧ decimalValue digits < wordLimit ∧
        ∀ text ∈ texts digits, (compile text).isOk) ∧
      (∀ text ∈ texts "01".toList, ∀ t, compile text = .ok t →
        t.typeOf? ix t.root = some (.ok (.tuple [.number, .number]))) ∧
      ∀ text ∈ texts "7".toList, ∀ t, compile text = .ok t →
        t.typeOf? ix t.root = some (.error (.noItem 7 2)) := by
  intro ix ps tys texts
  have string : compile "\"a, b\"".toList = .ok ⟨#[⟨.string "a, b", ⟨0, 6⟩, none, false⟩], 0⟩ := by
    decide +kernel
  have nested : compile "(2, 3)".toList = .ok ⟨#[⟨.number "2", ⟨1, 2⟩, none, false⟩,
      ⟨.number "3", ⟨4, 5⟩, none, false⟩, ⟨.tuple [0, 1], ⟨1, 5⟩, none, false⟩,
      ⟨.parens 2, ⟨0, 6⟩, none, false⟩], 3⟩ := by
    decide +kernel
  have items : List.Forall₂ (ItemText ix) ps tys :=
    .cons ⟨_, string, trivial, rfl⟩ (.cons ⟨_, nested, trivial, rfl⟩ .nil)
  have digit (digits : List Char) (h : digits ≠ [] ∧ digits.all Lexeme.isDigit) : IsNumeral digits :=
    ⟨h.1, List.all_eq_true.1 h.2⟩
  have numerals : ∀ digits ∈ ["01".toList, "7".toList], IsNumeral digits ∧ decimalValue digits < wordLimit :=
    List.forall_mem_cons.2 ⟨⟨digit _ (by decide), by decide⟩,
      List.forall_mem_singleton.2 ⟨digit _ (by decide), by decide⟩⟩
  have accepted : ∀ digits ∈ ["01".toList, "7".toList], ∀ text ∈ texts digits, (compile text).isOk := by
    decide +kernel
  obtain ⟨inside, small⟩ := numerals "01".toList (by simp)
  obtain ⟨beyond, large⟩ := numerals "7".toList (by simp)
  refine ⟨by decide, items, ?_, ?_, ?_⟩
  · intro digits hd
    exact ⟨(numerals digits hd).1, (numerals digits hd).2, accepted digits hd⟩
  · intro text written t ht
    exact (item_by_position ix ps tys _ (by decide) items inside small text written t ht).1 _ rfl
  · intro text written t ht
    exact (item_by_position ix ps tys _ (by decide) items beyond large text written t ht).2 (by decide)

end InventoryQuery
