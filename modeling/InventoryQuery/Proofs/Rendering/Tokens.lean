import InventoryQuery.Proofs.Keyword.Marks
import InventoryQuery.Proofs.Rendering.Spelling
import InventoryQuery.Proofs.Token.Form

/-! The tokens of a rendering whose operators have been rewritten. Between its parts stand spaces and
characters that end every token before them, so it is read piece by piece, and every name is one
phrase again. -/

namespace InventoryQuery

open Lexeme Token

/-- A token of this kind, spoken like this. -/
def spokenToken (k : Kind) (spoken : String) : Token := ⟨k, rewriteKeywords spoken.toList, 0⟩

def PrefixOperator.tokens : PrefixOperator → List Token
  | existence => [spokenToken .existsWord "exists"]
  | absence => [spokenToken .notWord "not", spokenToken .existsWord "exists"]
  | negation => [spokenToken .notWord "not"]
  | minus => [spokenToken .minus "-"]

def InfixOperator.kind : InfixOperator → Kind
  | relation _ => .relation
  | conjunction => .andWord
  | disjunction => .orWord
  | plus => .plus
  | minus => .minus
  | times => .star
  | divide => .slash
  | modulo => .modWord
  | concat => .ampersand

namespace Expr

mutual

def tokens : Expr → List Token
  | node (.string value) => [⟨.string, '"' :: (value.toList ++ ['"']), 0⟩]
  | node (.number digits) => [⟨.numeral, digits.toList, 0⟩]
  | node .it => [spokenToken .itWord "it"]
  | node (.phrase name none) => [⟨.phrase, name.toList, 0⟩]
  | node (.phrase name (some argument)) => ⟨.phrase, name.toList, 0⟩ :: argument.tokens
  | node (.property accessor source) => accessor.tokens ++ spokenToken .ofWord "of" :: source.tokens
  | node (.whose source filter) => source.tokens ++ spokenToken .whoseWord "whose" :: filter.tokens
  | node (.parens content) => ⟨.leftParen, ['('], 0⟩ :: (content.tokens ++ [⟨.rightParen, [')'], 0⟩])
  | node (.cast source target) =>
    source.tokens ++ [spokenToken .asWord "as", ⟨.phrase, target.toList, 0⟩]
  | node (.unary operator operand) => operator.tokens ++ operand.tokens
  | node (.binary operator left right) =>
    left.tokens ++ spokenToken operator.kind operator.spelling :: right.tokens
  | node (.tuple items) => tokensAll ⟨.comma, [','], 0⟩ items
  | node (.collection items) => tokensAll ⟨.semicolon, [';'], 0⟩ items
  | node (.conditional condition thenBranch elseBranch) =>
    spokenToken .ifWord "if" :: (condition.tokens ++ spokenToken .thenWord "then" ::
      (thenBranch.tokens ++ spokenToken .elseWord "else" :: elseBranch.tokens))
  | node .marker => [⟨.question, ['?'], 0⟩]

def tokensAll (separator : Token) : List Expr → List Token
  | [] => []
  | [e] => e.tokens
  | e :: es => e.tokens ++ separator :: tokensAll separator es

end

/-- What the rule `primary` gives, the only thing that may follow a name as its argument. -/
def Primary : Expr → Prop
  | .node (.parens _) | .node (.string _) | .node (.number _) | .node .it | .node .marker => True
  | _ => False

end Expr

def IsRelation (words : String) : Prop :=
  ∃ s, (s, Kind.relation) ∈ spellings ∧ words = String.ofList (spokenForm s)

/-- The texts in a form are such as can be read. -/
def Shape.Worded : Shape Expr → Prop
  | .string value => '"' ∉ value.toList
  | .number digits => IsNumeral digits.toList
  | .phrase name argument => IsName name.toList ∧ ∀ a ∈ argument, a.Primary
  | .cast _ target => IsName target.toList
  | .binary (.relation words) _ _ => IsRelation words
  | .tuple items | .collection items => items ≠ []
  | _ => True

/-- The text is a token of this kind by itself, and no word. -/
def IsToken (k : Kind) : List Char → Prop
  | [] => False
  | c :: w => next c w = (k, w.length) ∧ isSpace c = false ∧ isLetter c = false ∧
    k ≠ .blank ∧ k ≠ .word ∧ k ≠ .invalid

instance (k : Kind) : DecidablePred (IsToken k)
  | [] => inferInstanceAs (Decidable False)
  | _ :: _ => inferInstanceAs (Decidable (_ ∧ _))

theorem IsToken.contents {k : Kind} {w : List Char} (h : IsToken k w) (q : List Char) :
    contents (w ++ ' ' :: q) = (k, w) :: contents q := by
  cases w with
  | nil => exact h.elim
  | cons c w =>
    obtain ⟨found, space, -, blank, word, invalid⟩ := h
    rw [List.cons_append, contents_cons w ?_ blank word, contents_space]
    rw [next_append_blank (fun hs => by rw [space] at hs; cases hs) (by rw [found]; exact invalid),
      found]

theorem IsToken.stops {k : Kind} {w : List Char} (h : IsToken k w) (q : List Char) :
    Stops (' ' :: (w ++ q)) := by
  cases w with
  | nil => exact h.elim
  | cons c w =>
    obtain ⟨-, space, letter, -⟩ := h
    exact .space (by simp [space]) (by simp [letter])

def spokenOperators : List (Kind × String) :=
  [(.ofWord, "of"), (.whoseWord, "whose"), (.asWord, "as"), (.ifWord, "if"), (.thenWord, "then"),
   (.elseWord, "else"), (.existsWord, "exists"), (.notWord, "not"), (.andWord, "and"), (.orWord, "or"),
   (.plus, "+"), (.minus, "-"), (.star, "*"), (.slash, "/"), (.modWord, "mod"), (.ampersand, "&")]

theorem isToken_spoken {k : Kind} {w : String} (h : (k, w) ∈ spokenOperators) :
    IsToken k (rewriteKeywords w.toList) ∧ (rewriteKeywords w.toList).head? ≠ some '>' := by
  have table : ∀ p ∈ spokenOperators, IsToken p.1 (rewriteKeywords p.2.toList) ∧
      (rewriteKeywords p.2.toList).head? ≠ some '>' := by decide +kernel
  exact table (k, w) h

/-- A relation is spelled again as it was. -/
theorem rewriteKeywords_relation : ∀ s ∈ spellings, s.2 = .relation →
    rewriteKeywords (spokenForm s.1) = s.1 ∧ IsToken .relation s.1 := by decide +kernel

theorem IsRelation.isToken {words : String} (h : IsRelation words) :
    IsToken .relation (rewriteKeywords words.toList) := by
  obtain ⟨s, hs, rfl⟩ := h
  obtain ⟨same, token⟩ := rewriteKeywords_relation _ hs rfl
  rwa [String.toList_ofList, same]

theorem IsRelation.spokenForm {words : String} (h : IsRelation words) :
    String.ofList (spokenForm (rewriteKeywords words.toList)) = words := by
  obtain ⟨s, hs, rfl⟩ := h
  rw [String.toList_ofList, (rewriteKeywords_relation _ hs rfl).1]

theorem mem_spokenOperators {o : InfixOperator} (h : ∀ words, o ≠ .relation words) :
    (o.kind, o.spelling) ∈ spokenOperators := by
  cases o with
  | relation words => exact absurd rfl (h words)
  | _ => decide

theorem isToken_between {o : InfixOperator} {l r : Expr} (h : Shape.Worded (.binary o l r)) :
    IsToken o.kind (rewriteKeywords o.spelling.toList) := by
  cases o with
  | relation words => exact IsRelation.isToken h
  | _ => exact (isToken_spoken (mem_spokenOperators (by simp))).1

theorem rewriteKeywords_it : rewriteKeywords "it".toList = ['$', 'i', 't'] := by decide +kernel

theorem contents_it {rest : List Char} (h : Stops rest) :
    contents (rewriteKeywords "it".toList ++ rest) =
      (.itWord, rewriteKeywords "it".toList) :: contents rest := by
  rw [rewriteKeywords_it]
  refine contents_cons ['i', 't'] (next_spelling (by decide) (by decide +kernel) ?_)
    nofun nofun
  refine stop_of_head (w := ['$', 'i', 't']) ['s'] ?_ (by decide +kernel)
  rintro _ hd same
  cases List.mem_singleton.1 hd
  exact (h.1 's' same).1 (by decide)

def separators : List (Char × Kind) := [(',', .comma), (';', .semicolon)]

/-- Separators and marks are tokens whatever follows. -/
theorem contents_mark {c : Char} {k : Kind} (h : (c, k) ∈ separators ++ marks)
    (rest : List Char) : contents (c :: rest) = (k, [c]) :: contents rest := by
  have table : ∀ p ∈ separators ++ marks, (isSpace p.1 = false ∧ isLetter p.1 = false ∧
      isDigit p.1 = false ∧ p.1 ≠ '"') ∧ longestSpelling? [p.1] = some (p.2, 1) ∧ p.2 ≠ .blank ∧
      p.2 ≠ .word ∧ ∀ s ∈ spellings, [p.1] <+: s.1 → s.1 = [p.1] := by decide +kernel
  obtain ⟨classes, found, blank, word, only⟩ := table _ h
  refine contents_cons [] (next_spelling classes found ?_) blank word
  exact stop_of_head (w := [c]) [] (by simp) fun s hs hp => .inl (only s hs hp)

theorem contents_minus {rest : List Char} (h : rest.head? ≠ some '>') :
    contents ('-' :: rest) = (.minus, ['-']) :: contents rest := by
  refine contents_cons [] (next_spelling (by decide) (by decide +kernel) ?_) nofun nofun
  exact stop_of_head (w := ['-']) ['>'] (by simpa using h) (by decide +kernel)

/-- The text is read as these tokens, whatever stops it. -/
structure ReadAs (text : List Char) (ts : List Token) : Prop where
  head : ∀ rest : List Char, rest.head? ≠ some '>' → (text ++ rest).head? ≠ some '>'
  contents : ∀ rest, Stops rest → contents (text ++ rest) = reading ts ++ contents rest

theorem head_ne_of_letter {c : Char} (h : isLetter c) : c ≠ '>' := by
  rintro rfl
  exact absurd h (by decide)

namespace ReadAs

variable {u v w n : List Char} {xs ys : List Token} {k : Kind} {c : Char}

theorem spoken {o : String} (ho : (k, o) ∈ spokenOperators) (hv : ReadAs v ys) :
    ReadAs (rewriteKeywords o.toList ++ ' ' :: v) (spokenToken k o :: ys) where
  head rest _ := by
    have := (isToken_spoken ho).2
    cases hw : rewriteKeywords o.toList <;> simp_all
  contents rest hr := by
    rw [List.append_assoc, List.cons_append, (isToken_spoken ho).1.contents, hv.contents rest hr]
    rfl

theorem joined (hu : ReadAs u xs) (hw : IsToken k w) (hv : ReadAs v ys) :
    ReadAs (u ++ ' ' :: (w ++ ' ' :: v)) (xs ++ ⟨k, w, 0⟩ :: ys) where
  head rest _ := by
    rw [List.append_assoc]
    exact hu.head _ (by simp)
  contents rest hr := by
    have stop := hw.stops (' ' :: (v ++ rest))
    rw [List.append_assoc, List.cons_append, List.append_assoc, List.cons_append,
      hu.contents _ stop, contents_space, hw.contents, hv.contents rest hr, reading_append,
      List.append_assoc]
    rfl

theorem separated (hu : ReadAs u xs) (hm : (c, k) ∈ separators)
    (hv : ReadAs v ys) : ReadAs (u ++ c :: ' ' :: v) (xs ++ ⟨k, [c], 0⟩ :: ys) where
  head rest _ := by
    rw [List.append_assoc]
    refine hu.head _ ?_
    have : ∀ p ∈ separators, p.1 ≠ '>' := by decide
    simpa using this _ hm
  contents rest hr := by
    have stop : ∀ p ∈ separators, ¬ isWordPart p.1 ∧ ¬ isSpace p.1 ∧ p.1 ≠ '>' := by decide
    obtain ⟨word, space, arrow⟩ := stop _ hm
    rw [List.append_assoc, List.cons_append, List.cons_append, hu.contents _ (.cons word space arrow),
      contents_mark (List.mem_append_left _ hm), contents_space,
      hv.contents rest hr, reading_append, List.append_assoc]
    rfl

theorem parens (hu : ReadAs u xs) :
    ReadAs ('(' :: (u ++ [')'])) (⟨.leftParen, ['('], 0⟩ :: (xs ++ [⟨.rightParen, [')'], 0⟩])) where
  head rest _ := by simp
  contents rest hr := by
    rw [List.cons_append, List.append_assoc, List.singleton_append, contents_mark (k := .leftParen) (by decide),
      hu.contents _ (.cons (by decide) (by decide) (by decide)),
      contents_mark (k := .rightParen) (by decide),
      reading_cons, reading_append, List.cons_append, List.append_assoc]
    rfl

theorem minus (hu : ReadAs u xs) : ReadAs ('-' :: u) (⟨.minus, ['-'], 0⟩ :: xs) where
  head rest _ := by simp
  contents rest hr := by
    have arrow : rest.head? ≠ some '>' := fun same => (hr.1 '>' same).2 rfl
    rw [List.cons_append, contents_minus (hu.head rest arrow), hu.contents rest hr]
    rfl

theorem name (hn : IsName n) : ReadAs n [⟨.phrase, n, 0⟩] where
  head rest _ := by
    obtain ⟨c, cs, rfl, hc⟩ := hn.starts
    simpa using head_ne_of_letter hc
  contents rest hr := contents_name hn hr

theorem numeral (hn : IsNumeral n) : ReadAs n [⟨.numeral, n, 0⟩] where
  head rest _ := by
    obtain ⟨hne, digits⟩ := hn
    cases n with
    | nil => exact absurd rfl hne
    | cons c cs =>
      have digit := digits c List.mem_cons_self
      rintro ⟨⟩
      exact absurd digit (by decide)
  contents rest hr := contents_numeral hn fun d hd => (hr.1 d hd).1

theorem it : ReadAs (rewriteKeywords "it".toList) [spokenToken .itWord "it"] where
  head rest _ := by
    rw [rewriteKeywords_it]
    simp
  contents rest hr := contents_it hr

theorem applied (hn : IsName n) (hv : ReadAs v ys) (hs : ∀ rest, Stops (' ' :: (v ++ rest))) :
    ReadAs (n ++ ' ' :: v) (⟨.phrase, n, 0⟩ :: ys) where
  head rest _ := by
    obtain ⟨c, cs, rfl, hc⟩ := hn.starts
    simpa using head_ne_of_letter hc
  contents rest hr := by
    rw [List.append_assoc, List.cons_append, contents_name hn (hs rest), contents_space,
      hv.contents rest hr]
    rfl

end ReadAs

namespace Expr

/-- An argument begins with a token that ends the name before it. -/
theorem Primary.stops {e : Expr} (h : e.Primary) (hw : e.shape.Worded) (rest : List Char) :
    Stops (' ' :: (e.spell rewriteKeywords ++ rest)) := by
  cases e with
  | node s =>
    cases s with
    | number digits =>
      obtain ⟨hne, digit⟩ := hw
      change Stops (' ' :: (digits.toList ++ rest))
      cases hd : digits.toList with
      | nil => exact absurd hd hne
      | cons c cs =>
        have := digit c (by rw [hd]; exact List.mem_cons_self)
        exact .space (not_isSpace_of_isDigit this) (not_isLetter_of_isDigit this)
    | string | parens | marker => exact .space (by decide) (by decide)
    | it =>
      change Stops (' ' :: (rewriteKeywords "it".toList ++ rest))
      rw [rewriteKeywords_it]
      exact .space (by decide) (by decide)
    | _ => exact h.elim

theorem readAs_spellAll {c : Char} {k : Kind} (hm : (c, k) ∈ separators) {es : List Expr}
    (hne : es ≠ []) (h : ∀ e ∈ es, ReadAs (e.spell rewriteKeywords) e.tokens) :
    ReadAs (spellAll rewriteKeywords c es) (tokensAll ⟨k, [c], 0⟩ es) := by
  induction es with
  | nil => exact absurd rfl hne
  | cons e es ih =>
    obtain ⟨first, rest⟩ := List.forall_mem_cons.1 h
    cases es with
    | nil => exact first
    | cons f es => exact first.separated hm (ih (by simp) rest)

/-- The tokens of the rendering, once its operators are rewritten. -/
theorem readAs_spell {e : Expr} (h : e.Everywhere Shape.Worded) :
    ReadAs (e.spell rewriteKeywords) e.tokens := by
  induction h with
  | @node s hs parts ih =>
    cases s with
    | string value =>
      exact ⟨by simp [spell], fun rest _ => by
        simpa [spell, tokens, reading] using contents_string hs rest⟩
    | number digits => exact .numeral hs
    | it => exact .it
    | marker => exact ⟨by simp [spell], fun rest _ => contents_mark (by decide) rest⟩
    | phrase name argument =>
      cases argument with
      | none => exact .name hs.1
      | some argument =>
        have worded : argument.shape.Worded := by
          cases parts argument (by simp [Shape.children]) with
          | node hw => exact hw
        exact .applied hs.1 (ih argument (by simp [Shape.children])) ((hs.2 argument rfl).stops worded)
    | property accessor source =>
      exact (ih accessor (by simp [Shape.children])).joined
        (isToken_spoken (k := .ofWord) (w := "of") (by decide)).1 (ih source (by simp [Shape.children]))
    | whose source filter =>
      exact (ih source (by simp [Shape.children])).joined
        (isToken_spoken (k := .whoseWord) (w := "whose") (by decide)).1
        (ih filter (by simp [Shape.children]))
    | parens content => exact (ih content (by simp [Shape.children])).parens
    | cast source target =>
      exact (ih source (by simp [Shape.children])).joined
        (isToken_spoken (k := .asWord) (w := "as") (by decide)).1 (.name hs)
    | unary o operand =>
      have part := ih operand (by simp [Shape.children])
      cases o with
      | existence => exact part.spoken (k := .existsWord) (o := "exists") (by decide)
      | absence =>
        have exists' := part.spoken (k := .existsWord) (o := "exists") (by decide)
        have both := exists'.spoken (k := .notWord) (o := "not") (by decide)
        rw [← List.cons_append, ← List.append_assoc] at both
        have words : rewriteKeywords "not exists".toList =
          rewriteKeywords "not".toList ++ ' ' :: rewriteKeywords "exists".toList := by decide +kernel
        change ReadAs (rewriteKeywords "not exists".toList ++ ' ' :: operand.spell rewriteKeywords) _
        rw [words]
        exact both
      | negation => exact part.spoken (k := .notWord) (o := "not") (by decide)
      | minus =>
        have sign : rewriteKeywords "-".toList = ['-'] := by decide +kernel
        have : PrefixOperator.minus.tokens = [⟨.minus, ['-'], 0⟩] := by
          rw [PrefixOperator.tokens, spokenToken, sign]
        rw [tokens, this]
        exact part.minus
    | binary o left right =>
      exact (ih left (by simp [Shape.children])).joined (isToken_between hs)
        (ih right (by simp [Shape.children]))
    | tuple items => exact readAs_spellAll (by decide) hs ih
    | collection items => exact readAs_spellAll (by decide) hs ih
    | conditional c a b =>
      have branches := (ih a (by simp [Shape.children])).joined
        (isToken_spoken (k := .elseWord) (w := "else") (by decide)).1 (ih b (by simp [Shape.children]))
      have rest := (ih c (by simp [Shape.children])).joined
        (isToken_spoken (k := .thenWord) (w := "then") (by decide)).1 branches
      exact rest.spoken (k := .ifWord) (o := "if") (by decide)

end Expr

end InventoryQuery
