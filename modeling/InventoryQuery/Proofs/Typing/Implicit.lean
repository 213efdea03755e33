import InventoryQuery.Proofs.Grammar.Filter
import InventoryQuery.Proofs.Token.Parens
import InventoryQuery.Proofs.Typing.Around
import InventoryQuery.Proofs.Typing.Transparency

/-! A bare phrase in a filter. Where there is no creation of its name it reads from what is filtered,
as it does with `of it` behind it, up to one special case: an item of a tuple is found with `of it`
only. -/

namespace InventoryQuery

open Grammar Rewrite

theorem quoteOpen_not (b : Bool) (cs : List Char) : quoteOpen (!b) cs = !quoteOpen b cs := by
  induction cs generalizing b with
  | nil => rfl
  | cons c cs ih =>
    have step (b : Bool) : quoteOpen b (c :: cs) = quoteOpen (b ^^ (c == '"')) cs := rfl
    rw [step, step, Bool.not_xor, ih]

def filterTokens : FilterTokens where
  word := whoseToken
  opening := ⟨.leftParen, ['('], 0⟩
  closing := ⟨.rightParen, [')'], 0⟩
  word_kind := rfl
  opening_kind := rfl
  closing_kind := rfl

section filter

variable {source phrase : List Char}

/-- A text with its quotes closed has them closed in front of another one that has. -/
theorem quotes_closed_front {xs ys : List Char} (whole : quoteOpen false (xs ++ ys) = false)
    (behind : quoteOpen false ys = false) : quoteOpen false xs = false := by
  rw [quoteOpen_append] at whole
  cases front : quoteOpen false xs with
  | false => rfl
  | true =>
    rw [front, ← Bool.not_false, quoteOpen_not, behind] at whole
    cases whole

theorem rewriteKeywords_filter (closed : quoteOpen false source = false) (q : List Char) :
    rewriteKeywords (source ++ " whose (".toList ++ q) =
      rewriteKeywords source ++ ' ' :: ("$whose".toList ++ ' ' :: '(' :: rewriteKeywords q) := by
  have split : source ++ " whose (".toList ++ q =
      source ++ ' ' :: ("whose".toList ++ ' ' :: ([] ++ '(' :: q)) := by simp
  rw [split, rewriteKeywords_whose closed, rewriteKeywords_append_paren (.inl rfl) rfl]
  rfl

/-- What is filtered, and what its filter is read from. -/
theorem contents_filter (closed : quoteOpen false source = false)
    (valid : ∀ t ∈ lexemes (rewriteKeywords source), t.kind ≠ .invalid) (q : List Char) :
    Token.contents (rewriteKeywords (source ++ " whose (".toList ++ q)) =
      reading (part source ++ [filterTokens.word, filterTokens.opening]) ++
        Token.contents (rewriteKeywords q) := by
  have cut : Lexeme.next '$' "whose".toList = (.whoseWord, "whose".toList.length) := rfl
  have word := Token.contents_joined cut (by decide) (by decide) valid ('(' :: rewriteKeywords q)
  have nothing : ∀ t ∈ lexemes [], t.kind ≠ .invalid := nofun
  have opening := Token.contents_append_paren (.inl rfl) nothing (rewriteKeywords q)
  rw [List.nil_append] at opening
  rw [rewriteKeywords_filter closed, reading_append, reading_part, List.append_assoc]
  refine word.trans (congrArg _ ?_)
  rw [opening]
  rfl

theorem contents_bare {p : Tree} (hp : compile phrase = .ok p) :
    Token.contents (rewriteKeywords (phrase ++ ")".toList)) =
      reading (part phrase ++ [filterTokens.closing]) := by
  have rewritten : rewriteKeywords (phrase ++ ")".toList) = rewriteKeywords phrase ++ ')' :: [] :=
    rewriteKeywords_append_paren (.inr rfl) (quotes_closed_of_compile hp) []
  rw [rewritten, Token.contents_append_paren (.inr rfl) (valid_of_compile hp), reading_append,
    reading_part]
  rfl

def ofIt (phrase : List Char) : List Token := part phrase ++ [Joint.of.token, ⟨.itWord, "$it".toList, 0⟩]

theorem contents_ofIt {p : Tree} (hp : compile phrase = .ok p) :
    Token.contents (rewriteKeywords (phrase ++ " of it)".toList)) =
      reading (ofIt phrase ++ [filterTokens.closing]) := by
  have it : Token.contents (rewriteKeywords "it)".toList) =
      reading [⟨.itWord, "$it".toList, 0⟩, filterTokens.closing] := by decide +kernel
  have split : phrase ++ " of it)".toList = phrase ++ " of ".toList ++ "it)".toList := by simp
  rw [split, contents_of hp, it, ← reading_append, ofIt]
  simp

end filter

/-- A phrase in a filter, and the same phrase with its receiver written out, in two texts. -/
structure Filtering (source phrase : List Char) (p t u : Tree) (name : String)
    (argument : Option Expr) : Prop where
  phrase_text : compile phrase = .ok p
  named : p.rootExpr = .node (.phrase name argument)
  bare : compile (source ++ " whose (".toList ++ phrase ++ ")".toList) = .ok t
  explicit : compile (source ++ " whose (".toList ++ phrase ++ " of it)".toList) = .ok u

namespace Filtering

variable {source phrase : List Char} {p t u : Tree} {name : String} {argument : Option Expr}
  (h : Filtering source phrase p t u name argument)

include h

theorem closed : quoteOpen false source = false := by
  have whole := quotes_closed_of_compile h.bare
  rw [List.append_assoc, List.append_assoc] at whole
  refine quotes_closed_front whole ?_
  have opening : '"' ∉ " whose (".toList := by decide
  rw [quoteOpen_append, quoteOpen_append, quoteOpen_of_not_mem opening,
    quotes_closed_of_compile h.phrase_text]
  rfl

theorem valid : ∀ t ∈ lexemes (rewriteKeywords source), t.kind ≠ .invalid := by
  have whole := valid_of_compile h.bare
  rw [List.append_assoc _ phrase, rewriteKeywords_filter h.closed] at whole
  exact Lexeme.valid_front ((quoteOpen_rewriteKeywords false source).trans h.closed) whole

/-- What the phrase and its receiver stand for. -/
theorem derives_ofIt : ∃ n, Derives (.rule .expression) (ofIt phrase)
    (.node (.property (.node (.phrase name argument)) (.node .it))) n := by
  obtain ⟨n, hx⟩ := SelectionText.selects ⟨p, h.phrase_text, h.named, trivial⟩
  have it : Derives (.rule .primary) [⟨.itWord, "$it".toList, 0⟩] (.node .it) 0 := .leaf rfl
  exact ⟨_, (Derives.sourced (o := Joint.of.token) rfl hx (it.loosened (by decide))).loosened
    (by decide)⟩

/-- The two expressions differ in the parentheses only. -/
theorem exists_around : ∃ frames filtered,
    t.rootExpr = plug frames (filtering filtered (.node (.phrase name argument))) ∧
    u.rootExpr = plug frames (filtering filtered
      (.node (.property (.node (.phrase name argument)) (.node .it)))) := by
  have bare : Token.contents (rewriteKeywords (source ++ " whose (".toList ++ phrase ++ ")".toList)) =
      reading (part source ++ filterTokens.around (part phrase)) := by
    rw [List.append_assoc _ phrase, contents_filter h.closed h.valid, contents_bare h.phrase_text,
      ← reading_append, FilterTokens.around]
    simp
  have explicit : Token.contents
      (rewriteKeywords (source ++ " whose (".toList ++ phrase ++ " of it)".toList)) =
      reading (part source ++ filterTokens.around (ofIt phrase)) := by
    rw [List.append_assoc _ phrase, contents_filter h.closed h.valid, contents_ofIt h.phrase_text,
      ← reading_append, FilterTokens.around]
    simp
  obtain ⟨v, hv, root⟩ := compile_eq_ok h.bare
  obtain ⟨n, -, -, whole, -⟩ := derives_of_parse hv
  rw [← root] at whole
  obtain ⟨w, hw, phrased⟩ := compile_eq_ok h.phrase_text
  obtain ⟨k, -, -, inside, -⟩ := derives_of_parse hw
  have read : reading (part source ++ filterTokens.around (part phrase)) =
      reading (tokens (rewriteKeywords
        (source ++ " whose (".toList ++ phrase ++ ")".toList))).dropLast := by
    rw [← bare, ← reading_part, part]
  obtain ⟨frames, filtered, content, l, within, form, others⟩ :=
    Derives.ends (f := filterTokens) inside (whole.of_texts read) _ rfl
  obtain rfl : p.rootExpr = content :=
    rootExpr_of_reading h.phrase_text (reading_part phrase).symm within
  rw [h.named] at form
  obtain ⟨m, hd⟩ := h.derives_ofIt
  obtain ⟨_, other⟩ := others _ _ m hd
  exact ⟨frames, filtered, form, rootExpr_of_reading h.explicit explicit other⟩

end Filtering

def filteredType (ix : Index) (frames : List Frame) (filtered : Expr) : Answer :=
  filtered.type ix (handedThrough ix frames (none, false)).1 (handedThrough ix frames (none, false)).2

/-- What is in the parentheses of a filter reads from what is filtered. -/
theorem exists_filtered {text : List Char} {t : Tree} (h : compile text = .ok t) {frames : List Frame}
    {filtered content : Expr} (form : t.rootExpr = plug frames (filtering filtered content)) :
    ∃ x b, t.follow? t.root (frames.map Frame.place ++ [0]) = some x ∧
      t.follow? t.root (frames.map Frame.place ++ [1, 0]) = some b ∧ t.expr b = content ∧
      ∀ ix, t.typeOf? ix x = some (filteredType ix frames filtered) ∧
        t.typeOf? ix b = some (content.type ix (some (filteredType ix frames filtered)) false) := by
  obtain ⟨u, whole, rfl⟩ := whole_of_compile h
  obtain ⟨n, hn, scope, direct⟩ := whole.withScopes_root
  obtain ⟨c, m, way, hm, node, inside⟩ := whole.exists_inside frames hn form
  obtain ⟨x, mx, hx, hmx, source, received⟩ := whole.exists_part hm (k := 0) (e := filtered)
    (by rw [node]; rfl)
  obtain ⟨y, my, hy, hmy, parens, chosen⟩ :=
    whole.exists_part hm (k := 1) (e := .node (.parens content)) (by rw [node]; rfl)
  obtain ⟨b, mb, hb, hmb, found, read⟩ := whole.exists_part hmy (k := 0) (e := content)
    (by rw [parens]; rfl)
  have root : u.withScopes.root = u.root := rfl
  have top (ix : Index) : u.withScopes.around ix n = (none, false) := by
    rw [Tree.around, scope, direct]
    rfl
  refine ⟨x, b, ?_, ?_, found, fun ix => ⟨?_, ?_⟩⟩
  · rw [Tree.follow?_append, root, way, Option.bind_some, Tree.follow?, hx]
    rfl
  · rw [Tree.follow?_append, root, way, Option.bind_some, Tree.follow?, hy, Option.bind_some,
      Tree.follow?, hb]
    rfl
  · rw [whole.typeOf?_around ix hmx, source, received, node, inside, top]
    rfl
  · rw [whole.typeOf?_around ix hmb, found, read, parens, chosen, node, inside, top]
    rfl

namespace Expr

variable {ix : Index} {owner : Answer} {name : String} {argument : Option Expr}

/-- Without a creation of its name, a phrase is looked up on its receiver. -/
theorem type_implicit (value : isTruth name = false)
    (fails : ∀ params, argumentKey ix argument (some owner) = .ok params →
      ∃ e, ix.creation (lowered name) params = .error e) (ty : Ty) :
    (node (.phrase name argument)).type ix (some owner) false = .ok ty ↔
      lookedUp ix owner name argument = .ok ty := by
  have other : (lowered name = "true" || lowered name = "false") = false := value
  rw [lookedUp_eq_ok_iff, type, phraseAnswer]
  simp only [other, Bool.false_eq_true, if_false]
  cases key : argumentKey ix argument (some owner) with
  | error e => exact Iff.rfl
  | ok params =>
    obtain ⟨e, missing⟩ := fails params key
    simp only [bind, Except.bind, missing, Option.map_some]
    cases owner with
    | error e => simp
    | ok ty' => cases found : ty'.property ix (lowered name) params <;> simp [found]

/-- With `of it`, it is an item of the receiver, or looked up on it. -/
theorem type_explicit : (node (.property (node (.phrase name argument)) (node .it))).type ix
    (some owner) false = (itemOf? owner name argument).getD (lookedUp ix owner name argument) := by
  rw [type_bare, type]
  rfl

end Expr

open InventoryQuery.Expr in
/-- A phrase in the parentheses of a filter has the type that it has with `of it` behind it, if there
is no creation of its name, unless it is an item of a tuple. That is found with `of it` only, and
without it the phrase is looked up as a property. -/
theorem implicit_receiver (source phrase : List Char) (p t u : Tree) (name : String)
    (argument : Option Expr) (hp : compile phrase = .ok p)
    (named : p.rootExpr = .node (.phrase name argument)) (value : isTruth name = false)
    (ht : compile (source ++ " whose (".toList ++ phrase ++ ")".toList) = .ok t)
    (hu : compile (source ++ " whose (".toList ++ phrase ++ " of it)".toList) = .ok u) :
    ∃ frames filtered x b q,
      t.rootExpr = plug frames (filtering filtered (.node (.phrase name argument))) ∧
      u.rootExpr = plug frames (filtering filtered
        (.node (.property (.node (.phrase name argument)) (.node .it)))) ∧
      t.follow? t.root (frames.map Frame.place ++ [0]) = some x ∧
      t.follow? t.root (frames.map Frame.place ++ [1, 0]) = some b ∧
      u.follow? u.root (frames.map Frame.place ++ [1, 0]) = some q ∧
      t.expr b = .node (.phrase name argument) ∧
      u.expr q = .node (.property (.node (.phrase name argument)) (.node .it)) ∧
      ∀ ix, ∃ owner bare explicit, t.typeOf? ix x = some owner ∧ t.typeOf? ix b = some bare ∧
        u.typeOf? ix q = some explicit ∧
        ((∀ params, argumentKey ix argument (some owner) = .ok params →
            ∃ e, ix.creation (lowered name) params = .error e) →
          (itemOf? owner name argument = none → ∀ ty, bare = .ok ty ↔ explicit = .ok ty) ∧
          ∀ item, itemOf? owner name argument = some item → explicit = item ∧
            ∀ ty, bare = .ok ty ↔ lookedUp ix owner name argument = .ok ty) := by
  have parts : Filtering source phrase p t u name argument := ⟨hp, named, ht, hu⟩
  obtain ⟨frames, filtered, bare, explicit⟩ := parts.exists_around
  obtain ⟨x, b, receiver, phrase, found, types⟩ := exists_filtered ht bare
  obtain ⟨_, q, -, property, found', types'⟩ := exists_filtered hu explicit
  refine ⟨frames, filtered, x, b, q, bare, explicit, receiver, phrase, property, found, found',
    fun ix => ?_⟩
  refine ⟨_, _, _, (types ix).1, (types ix).2, (types' ix).2, fun fails => ⟨fun plain ty => ?_, ?_⟩⟩
  · rw [type_implicit value fails, type_explicit, plain, Option.getD_none]
  · intro item found
    exact ⟨by rw [type_explicit, found, Option.getD_some], type_implicit value fails⟩

open InventoryQuery.Expr in
theorem implicit_receiver_summand :
    let p : Tree := ⟨#[⟨.phrase "n" none, ⟨0, 1⟩, none, false⟩], 0⟩
    let t : Tree := ⟨#[⟨.number "1", ⟨0, 1⟩, none, false⟩, ⟨.phrase "x" none, ⟨4, 5⟩, none, false⟩,
      ⟨.phrase "n" none, ⟨14, 15⟩, some 1, false⟩, ⟨.parens 2, ⟨13, 16⟩, some 1, false⟩,
      ⟨.whose 1 3, ⟨4, 16⟩, none, false⟩, ⟨.binary .plus 0 4, ⟨0, 16⟩, none, false⟩], 5⟩
    let u : Tree := ⟨#[⟨.number "1", ⟨0, 1⟩, none, false⟩, ⟨.phrase "x" none, ⟨4, 5⟩, none, false⟩,
      ⟨.phrase "n" none, ⟨14, 15⟩, some 3, true⟩, ⟨.it, ⟨20, 23⟩, some 1, false⟩,
      ⟨.property 2 3, ⟨14, 23⟩, some 1, false⟩, ⟨.parens 4, ⟨13, 24⟩, some 1, false⟩,
      ⟨.whose 1 5, ⟨4, 24⟩, none, false⟩, ⟨.binary .plus 0 6, ⟨0, 24⟩, none, false⟩], 7⟩
    compile ['n'] = .ok p ∧ p.rootExpr = .node (.phrase "n" none) ∧ isTruth "n" = false ∧
    compile ("1 + x".toList ++ " whose (".toList ++ ['n'] ++ ")".toList) = .ok t ∧
    compile ("1 + x".toList ++ " whose (".toList ++ ['n'] ++ " of it)".toList) = .ok u ∧
    ∃ frames filtered x b q,
      t.rootExpr = plug frames (filtering filtered (.node (.phrase "n" none))) ∧
      u.rootExpr = plug frames (filtering filtered
        (.node (.property (.node (.phrase "n" none)) (.node .it)))) ∧
      t.follow? t.root (frames.map Frame.place ++ [0]) = some x ∧
      t.follow? t.root (frames.map Frame.place ++ [1, 0]) = some b ∧
      u.follow? u.root (frames.map Frame.place ++ [1, 0]) = some q ∧
      t.expr b = .node (.phrase "n" none) ∧
      u.expr q = .node (.property (.node (.phrase "n" none)) (.node .it)) ∧
      ∀ ix, ∃ owner bare explicit, t.typeOf? ix x = some owner ∧ t.typeOf? ix b = some bare ∧
        u.typeOf? ix q = some explicit ∧
        ((∀ params, argumentKey ix none (some owner) = .ok params →
            ∃ e, ix.creation (lowered "n") params = .error e) →
          (itemOf? owner "n" none = none → ∀ ty, bare = .ok ty ↔ explicit = .ok ty) ∧
          ∀ item, itemOf? owner "n" none = some item → explicit = item ∧
            ∀ ty, bare = .ok ty ↔ lookedUp ix owner "n" none = .ok ty) := by
  intro p t u
  have phrase : compile ['n'] = .ok p := by decide +kernel
  have value : isTruth "n" = false := by decide +kernel
  have bare : compile ("1 + x".toList ++ " whose (".toList ++ ['n'] ++ ")".toList) = .ok t := by
    decide +kernel
  have explicit :
      compile ("1 + x".toList ++ " whose (".toList ++ ['n'] ++ " of it)".toList) = .ok u := by
    decide +kernel
  exact ⟨phrase, rfl, value, bare, explicit,
    implicit_receiver _ _ p t u "n" none phrase rfl value bare explicit⟩

/-- The item of a tuple is not found without `of it`. -/
theorem implicit_receiver_item :
    let item : Expr := .node (.phrase "item" (some (.node (.number "0"))))
    let t : Tree := ⟨#[⟨.number "1", ⟨1, 2⟩, none, false⟩, ⟨.number "2", ⟨4, 5⟩, none, false⟩,
      ⟨.tuple [0, 1], ⟨1, 5⟩, none, false⟩, ⟨.parens 2, ⟨0, 6⟩, none, false⟩,
      ⟨.number "0", ⟨20, 21⟩, some 3, false⟩, ⟨.phrase "item" (some 4), ⟨15, 21⟩, some 3, false⟩,
      ⟨.parens 5, ⟨14, 22⟩, some 3, false⟩, ⟨.whose 3 6, ⟨0, 22⟩, none, false⟩], 7⟩
    let u : Tree := ⟨#[⟨.number "1", ⟨1, 2⟩, none, false⟩, ⟨.number "2", ⟨4, 5⟩, none, false⟩,
      ⟨.tuple [0, 1], ⟨1, 5⟩, none, false⟩, ⟨.parens 2, ⟨0, 6⟩, none, false⟩,
      ⟨.number "0", ⟨20, 21⟩, some 6, false⟩, ⟨.phrase "item" (some 4), ⟨15, 21⟩, some 6, true⟩,
      ⟨.it, ⟨26, 29⟩, some 3, false⟩, ⟨.property 5 6, ⟨15, 29⟩, some 3, false⟩,
      ⟨.parens 7, ⟨14, 30⟩, some 3, false⟩, ⟨.whose 3 8, ⟨0, 30⟩, none, false⟩], 9⟩
    let ix := Index.bare .everything
    let answer (t : Tree) (id : NodeId) := (t.typeOf? ix id).map (Except.map Ty.display)
    compile "(1, 2) whose (item 0)".toList = .ok t ∧
      compile "(1, 2) whose (item 0 of it)".toList = .ok u ∧
    isTruth "item" = false ∧
    ix.creation (lowered "item") (some "number") = .error (.noCreation "item" (some "number")) ∧
    t.expr 5 = item ∧ answer t 5 = some (.error (.lookup (.noCreation "item" (some "number")))) ∧
    u.expr 7 = .node (.property item (.node .it)) ∧ answer u 7 = some (.ok "number") := by
  intro item t u ix answer
  have bare : compile "(1, 2) whose (item 0)".toList = .ok t := by decide +kernel
  have explicit : compile "(1, 2) whose (item 0 of it)".toList = .ok u := by decide +kernel
  have fails : ix.creation (lowered "item") (some "number") =
      .error (.noCreation "item" (some "number")) := by rfl
  exact ⟨bare, explicit, by decide +kernel, fails, rfl, by decide +kernel, rfl, by decide +kernel⟩

end InventoryQuery
