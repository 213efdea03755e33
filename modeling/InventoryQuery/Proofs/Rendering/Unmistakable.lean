import InventoryQuery.Proofs.Rendering.Tokens

/-! When rewriting finds in a rendering its operators and nothing else. It is enough that names are
made of words that no reserved phrase has, that no operator stands right behind a sign and `it` not in
front of a separator, where there is no boundary, and that no relation gets a `not` after it. Articles
and phrases are rewritten one after the other by rules of the same form, so all is proved once for any
rules that rewrite the operators by themselves. -/

namespace InventoryQuery

open Lexeme Rewrite

/-- The words of reserved phrases, and articles. -/
def reservedWords : List (List Char) := (dropArticles ++ writeKeywords).flatMap (·.words)

theorem wordPart_reserved : ∀ w ∈ reservedWords, w ≠ [] ∧ w.all isLetter := by decide +kernel

def firstWord (text : List Char) : List Char := text.takeWhile isWordPart

def lastWord (text : List Char) : List Char := (text.reverse.takeWhile isWordPart).reverse

def EndsWord (rest : List Char) : Prop := ∀ d ∈ rest.head?, isWordPart d = false

theorem endsWord_cons {c : Char} (h : isWordPart c = false) (q : List Char) : EndsWord (c :: q) := by
  rintro _ ⟨⟩
  exact h

theorem firstWord_append {u rest : List Char} (h : EndsWord rest) :
    firstWord (u ++ rest) = firstWord u := by
  unfold firstWord
  rw [List.takeWhile_append]
  split
  · rename_i hl
    have nothing : rest.takeWhile isWordPart = [] := by
      cases rest with
      | nil => rfl
      | cons d rest => rw [List.takeWhile_cons_of_neg (by simp [h d rfl])]
    rw [nothing, List.append_nil, (List.takeWhile_prefix _).eq_of_length hl]
  · rfl

theorem firstWord_of_wordPart {w : List Char} (h : ∀ c ∈ w, isWordPart c) : firstWord w = w := by
  rw [firstWord, List.takeWhile_eq_self_iff]
  exact h

theorem lastWord_append_cons {c : Char} (h : isWordPart c = false) (u v : List Char) :
    lastWord (u ++ c :: v) = lastWord v := by
  rw [lastWord, List.reverse_append, List.reverse_cons, List.append_assoc]
  exact congrArg List.reverse (firstWord_append (endsWord_cons h _))

theorem not_isBoundary_of_isWordPart {c : Char} (h : isWordPart c) : isBoundary c = false := by
  have marks : isWordPart '(' = false ∧ isWordPart ')' = false := by decide
  rw [isBoundary, not_isBlank_of_isWordPart h]
  have left : c ≠ '(' := by rintro rfl; rw [marks.1] at h; cases h
  have right : c ≠ ')' := by rintro rfl; rw [marks.2] at h; cases h
  simp [left, right]

/-- A phrase is not there if the text starts with another word. -/
theorem reach?_eq_none {w : List Char} (hw : ∀ c ∈ w, isWordPart c) {text : List Char}
    (h : firstWord text ≠ w) (ws : List (List Char)) : reach? (w :: ws) text = none := by
  cases hm : w.isPrefixOf? text with
  | none => exact reach?_of_head hm
  | some rest =>
    have split := List.append_eq_of_isPrefixOf?_eq_some hm
    have goes : ¬ EndsWord rest := fun ends => h (by
      rw [← split, firstWord_append ends, firstWord_of_wordPart hw])
    cases rest with
    | nil => exact absurd nofun goes
    | cons c rest =>
      have part : isWordPart c := by
        by_contra hc
        exact goes (endsWord_cons (by simpa using hc) rest)
      cases ws with
      | nil => simp [reach?, hm, not_isBoundary_of_isWordPart part]
      | cons v ws => simp [reach?_cons_cons, hm, not_isBlank_of_isWordPart part]

/-- The words that operators and `it` start with. -/
def leadWords : List (List Char) := ["it".toList, "not".toList, "exists".toList, "if".toList]

/-- The relations as they are rendered. -/
def relationForms : List (List Char) := (spellings.filter (·.2 == .relation)).map (spokenForm ·.1)

def spokenForms : List (List Char) :=
  "not exists".toList :: (spokenOperators.map (·.2.toList) ++ relationForms)

theorem quotes_spokenForms : ∀ o ∈ spokenForms, '"' ∉ o := by decide +kernel

/-- No other operator is rendered like a relation. -/
theorem form_of_spoken {k : Kind} {w : String} (h : (k, w) ∈ spokenOperators) :
    w.toList ∈ spokenForms ∧ w.toList ∉ relationForms := by
  have table : ∀ p ∈ spokenOperators, p.2.toList ∉ relationForms := by decide +kernel
  refine ⟨?_, table _ h⟩
  exact List.mem_cons_of_mem _ (List.mem_append_left _ (List.mem_map.2 ⟨_, h, rfl⟩))

/-- Two words start the phrases that may go on with `not`, and only relations have them. -/
def negatable : List (List Char) := ["is".toList, "does".toList]

theorem lead_of_writeKeywords : ∀ r ∈ writeKeywords, ∀ w ∈ r.words.tail, w ∈ leadWords →
    r.words.head? = some "there".toList ∨
      (w = "not".toList ∧ ∃ v ∈ negatable, r.words.head? = some v) := by
  decide +kernel

theorem firstWord_of_tails : ∀ o ∈ spokenForms, ∀ s ∈ o.tails, firstWord s ≠ "there".toList ∧
    (firstWord s ∈ negatable → o ∈ relationForms) := by
  decide +kernel

/-- What is needed of the rules for them to rewrite each operator by itself. -/
structure Speaks (rules : List Rewrite) (say : List Char → List Char) : Prop where
  plain : ∀ r ∈ rules, r.Plain
  reserved : ∀ r ∈ rules, ∀ w ∈ r.words, w ∈ reservedWords
  spoken : ∀ o ∈ "it".toList :: spokenForms, applyAll rules o = say o
  apart : ∀ o ∈ spokenForms, ∀ s ∈ o.tails, ∀ r ∈ rules, r.words.head? = some (firstWord s) →
    ∀ w ∈ r.words.tail, w ∈ leadWords → w = "not".toList ∧ o ∈ relationForms
  it : ∀ r ∈ rules, ∀ s ∈ "it".toList.tails, r.words.head? = some s → r.words = [s]

theorem speaks_articles : Speaks dropArticles id where
  plain := plain_dropArticles
  reserved r hr w hw := List.mem_flatMap.2 ⟨r, List.mem_append_left _ hr, hw⟩
  spoken := by decide +kernel
  apart _ _ _ _ r hr _ w hw := by
    have single : ∀ r ∈ dropArticles, r.words.tail = [] := by decide
    rw [single r hr] at hw
    cases hw
  it := by decide +kernel

theorem speaks_keywords : Speaks writeKeywords rewriteKeywords where
  plain := plain_writeKeywords
  reserved r hr w hw := List.mem_flatMap.2 ⟨r, List.mem_append_right _ hr, hw⟩
  spoken o ho := by
    rw [rewriteKeywords, speaks_articles.spoken o ho]
    rfl
  apart o ho s hs r hr head w hw lead := by
    obtain ⟨there, relation⟩ := firstWord_of_tails o ho s hs
    rcases lead_of_writeKeywords r hr w hw lead with start | ⟨rfl, v, hv, start⟩
    · exact absurd (Option.some_inj.1 (head.symm.trans start)) there
    · cases head.symm.trans start
      exact ⟨rfl, relation hv⟩
  it := by decide +kernel

theorem nil_not_mem_reservedWords : [] ∉ reservedWords := fun h => (wordPart_reserved [] h).1 rfl

theorem EndsWord.unreserved {rest : List Char} (h : EndsWord rest) :
    firstWord rest ∉ reservedWords := by
  rw [show firstWord rest = [] from firstWord_append (u := []) h]
  exact nil_not_mem_reservedWords

section

variable {rules : List Rewrite} {say : List Char → List Char} (hr : Speaks rules say)
  {w n o rest q : List Char} {c : Char}

include hr

theorem Speaks.wordPart {r : Rewrite} (hm : r ∈ rules) (hw : w ∈ r.words) : ∀ c ∈ w, isWordPart c := by
  intro c hc
  rw [isWordPart, List.all_eq_true.1 (wordPart_reserved w (hr.reserved r hm w hw)).2 c hc]
  rfl

theorem Speaks.not_reached {r : Rewrite} (hm : r ∈ rules)
    (h : r.words.head? ≠ some (firstWord q)) : reach? r.words q = none := by
  cases hw : r.words with
  | nil => exact absurd hw (hr.plain r hm).1
  | cons v vs =>
    rw [hw] at h
    have letters := hr.wordPart hm (w := v) (by rw [hw]; exact List.mem_cons_self)
    exact reach?_eq_none letters (fun same => h (by rw [same]; rfl)) vs

/-- Nothing is found where no reserved word starts. -/
theorem Speaks.longest?_eq_none (h : firstWord q ∉ reservedWords) : longest? rules q = none := by
  cases hf : longest? rules q with
  | none => rfl
  | some found =>
    obtain ⟨hm, hn⟩ := longest?_mem hf
    rw [hr.not_reached hm fun head => h (hr.reserved _ hm _ (List.mem_of_mem_head? head))] at hn
    cases hn

theorem Speaks.applyFrom_fresh (h : firstWord q ∉ reservedWords) (fresh : Bool) :
    applyFrom rules 0 false fresh q = applyFrom rules 0 false true q := by
  cases q with
  | nil => rfl
  | cons c q => rw [applyFrom, applyFrom, hr.longest?_eq_none h, ite_self, ite_self]

theorem Speaks.applyFrom_mark (hc : isWordPart c = false) (hq : c ≠ '"') (fresh : Bool) :
    applyFrom rules 0 false fresh (c :: q) = c :: applyFrom rules 0 false (isBoundary c) q := by
  rw [applyFrom, hr.longest?_eq_none (endsWord_cons hc q).unreserved, ite_self]
  simp only [beq_false_of_ne hq, Bool.xor_false]

/-- A word that is not reserved is left as it is. -/
theorem Speaks.applyFrom_word (hw : ∀ c ∈ w, isWordPart c) (hn : w ∉ reservedWords)
    (he : EndsWord rest) :
    applyFrom rules 0 false true (w ++ rest) = w ++ applyFrom rules 0 false true rest := by
  have inside : applyFrom rules 0 false false (w ++ rest) = w ++ applyFrom rules 0 false false rest := by
    clear hn
    induction w with
    | nil => rfl
    | cons c w ih =>
      obtain ⟨part, hw⟩ := List.forall_mem_cons.1 hw
      have quote : c ≠ '"' := by rintro rfl; exact absurd part (by decide)
      rw [List.cons_append, applyFrom, not_isBoundary_of_isWordPart part, beq_false_of_ne quote]
      exact congrArg _ (ih hw)
  have start : firstWord (w ++ rest) ∉ reservedWords := by
    rwa [firstWord_append he, firstWord_of_wordPart hw]
  rw [← hr.applyFrom_fresh start false, inside, hr.applyFrom_fresh he.unreserved]

theorem Speaks.applyFrom_name (hn : IsName n) (hc : ∀ w ∈ blankSeparated n, w ∉ reservedWords)
    (he : EndsWord rest) :
    applyFrom rules 0 false true (n ++ rest) = n ++ applyFrom rules 0 false true rest := by
  induction hn with
  | word hw => exact hr.applyFrom_word hw.wordPart (hc _ (by rw [hw.separated]; simp)) he
  | @join w n hw hn ih =>
    rw [blankSeparated_append (by decide), hw.separated] at hc
    obtain ⟨first, others⟩ := List.forall_mem_cons.1 hc
    rw [List.append_assoc, List.cons_append,
      hr.applyFrom_word hw.wordPart first (endsWord_cons (by decide) _),
      hr.applyFrom_mark (by decide) (by decide), show isBoundary ' ' = true by decide,
      ih others, List.append_assoc, List.cons_append]

omit hr in
/-- In a string everything is left as it is, up to the quote at its end. -/
theorem applyFrom_string {value : List Char} (hv : '"' ∉ value) (fresh : Bool) :
    applyFrom rules 0 true fresh (value ++ '"' :: q) =
      value ++ '"' :: applyFrom rules 0 false false q := by
  rw [applyFrom_quoted hv, applyFrom_copied copies_string]
  rfl

/-- An operator is rewritten by itself, unless `not` comes after a relation. -/
theorem Speaks.applyFrom_operator (ho : o ∈ spokenForms) (hs : ∀ c ∈ q.head?, isBlank c = false)
    (hq : firstWord q ∈ leadWords ∨ firstWord q ∉ reservedWords)
    (hn : firstWord q = "not".toList → o ∉ relationForms) :
    applyFrom rules 0 false true (o ++ ' ' :: q) =
      say o ++ ' ' :: applyFrom rules 0 false true q := by
  have start : q.dropWhile isBlank = q := by
    cases q with
    | nil => rfl
    | cons c q => rw [List.dropWhile_cons_of_neg (by simp [hs c rfl])]
  have same : ∀ r ∈ rules, ∀ s, s <:+ o → reach? r.words (s ++ ' ' :: q) = reach? r.words s := by
    intro r hm s hs
    by_cases head : r.words.head? = some (firstWord s)
    · refine reach?_append_blank (hr.plain r hm).1 (fun w hw => ?_) (fun w vs hv => ?_) s
      · exact ⟨((hr.plain r hm).2.1 w hw).1, ((hr.plain r hm).2.1 w hw).2.1⟩
      · have tail : w ∈ r.words.tail := hv.subset List.mem_cons_self
        have mem : w ∈ r.words := List.mem_of_mem_tail tail
        rw [start]
        refine reach?_eq_none (hr.wordPart hm mem) (fun eq => ?_) vs
        have lead : w ∈ leadWords := by
          rw [eq] at hq
          exact hq.resolve_right (not_not_intro (hr.reserved r hm w mem))
        obtain ⟨rfl, relation⟩ := hr.apart o ho s ((List.mem_tails _ _).2 hs) r hm head w tail lead
        exact hn eq relation
    · rw [hr.not_reached hm head, hr.not_reached hm]
      rwa [firstWord_append (endsWord_cons (by decide) _)]
  rw [applyFrom_append_blank hr.plain false true o same,
    quoteOpen_of_not_mem (quotes_spokenForms o ho), ← hr.spoken o (List.mem_cons_of_mem _ ho)]
  rfl

/-- The word `it` is rewritten where a boundary ends it. -/
theorem Speaks.applyFrom_it (he : EndsWord rest) (hb : rest.head?.all isBoundary) :
    applyFrom rules 0 false true ("it".toList ++ rest) =
      say "it".toList ++ applyFrom rules 0 false true rest := by
  have same : ∀ r ∈ rules, ∀ s, s <:+ "it".toList → s ≠ [] →
      reach? r.words (s ++ rest) = reach? r.words s := by
    intro r hm s hs _
    have part : ∀ s ∈ "it".toList.tails, firstWord s = s := by decide
    have whole := part s ((List.mem_tails _ _).2 hs)
    by_cases head : r.words.head? = some s
    · have only := hr.it r hm s ((List.mem_tails _ _).2 hs) head
      have found (tail : List Char) : s.isPrefixOf? (s ++ tail) = some tail :=
        List.isPrefixOf?_eq_some_iff_append_eq.2 rfl
      have alone := found []
      rw [List.append_nil] at alone
      rw [only]
      simp [reach?, found, alone, hb]
    · rw [hr.not_reached hm (by rwa [firstWord_append he, whole]), hr.not_reached hm (by rwa [whole])]
  rw [applyFrom_append_of_same hr.plain false true _ same,
    show quoteOpen false "it".toList = false by decide, hr.applyFrom_fresh he.unreserved,
    ← hr.spoken "it".toList List.mem_cons_self]
  rfl

end

/-- The text is rewritten to this, whatever comes after it, as long as no word goes on there. -/
structure Rewritten (rules : List Rewrite) (u v : List Char) : Prop where
  filled : u ≠ []
  starts : ∀ c ∈ u.head?, isBlank c = false
  first : firstWord u ∈ leadWords ∨ firstWord u ∉ reservedWords
  apply : ∀ rest, EndsWord rest → (lastWord u = "it".toList → rest.head?.all isBoundary) →
    applyFrom rules 0 false true (u ++ rest) = v ++ applyFrom rules 0 false true rest

def prefixForms : List (List Char) :=
  ["not exists".toList, "exists".toList, "not".toList, "if".toList]

theorem prefixForms_spoken : ∀ o ∈ prefixForms, o ∈ spokenForms ∧ o ∉ relationForms ∧ o ≠ [] ∧
    o.head?.all (!isBlank ·) ∧ firstWord o ∈ leadWords := by decide +kernel

namespace Rewritten

variable {rules : List Rewrite} {say : List Char → List Char} (hr : Speaks rules say)
  {u u' v v' n o rest : List Char} {c : Char}

theorem head_append (hu : Rewritten rules u u') (rest : List Char) : (u ++ rest).head? = u.head? := by
  cases u with
  | nil => exact absurd rfl hu.filled
  | cons c u => rfl

/-- A text that starts like one that is rewritten by itself. -/
theorem of_start (hu : Rewritten rules u u') (he : EndsWord rest)
    (h : ∀ tail, EndsWord tail → (lastWord (u ++ rest) = "it".toList → tail.head?.all isBoundary) →
      applyFrom rules 0 false true (u ++ (rest ++ tail)) = v ++ applyFrom rules 0 false true tail) :
    Rewritten rules (u ++ rest) v where
  filled := by simp [hu.filled]
  starts := by rw [hu.head_append]; exact hu.starts
  first := by rw [firstWord_append he]; exact hu.first
  apply tail ht hb := by rw [List.append_assoc]; exact h tail ht hb

include hr

/-- Behind a space everything starts anew. -/
theorem spaced (hu : Rewritten rules u u') (q : List Char) :
    applyFrom rules 0 false true (u ++ ' ' :: q) = u' ++ ' ' :: applyFrom rules 0 false true q := by
  rw [hu.apply _ (endsWord_cons (by decide) q) fun _ => rfl, hr.applyFrom_mark (by decide) (by decide)]
  rfl

theorem operated (hv : Rewritten rules v v') (ho : o ∈ spokenForms)
    (hn : firstWord v = "not".toList → o ∉ relationForms) (he : EndsWord rest)
    (hb : lastWord v = "it".toList → rest.head?.all isBoundary) :
    applyFrom rules 0 false true (o ++ ' ' :: (v ++ rest)) =
      say o ++ ' ' :: (v' ++ applyFrom rules 0 false true rest) := by
  rw [hr.applyFrom_operator ho, hv.apply rest he hb]
  · rw [hv.head_append]
    exact hv.starts
  · rw [firstWord_append he]
    exact hv.first
  · rwa [firstWord_append he]

theorem spoken (ho : o ∈ prefixForms) (hv : Rewritten rules v v') :
    Rewritten rules (o ++ ' ' :: v) (say o ++ ' ' :: v') := by
  obtain ⟨form, relation, filled, starts, lead⟩ := prefixForms_spoken o ho
  refine ⟨by simp [filled], ?_, .inl ?_, fun rest he hb => ?_⟩
  · cases o with
    | nil => exact absurd rfl filled
    | cons c o =>
      rintro _ ⟨⟩
      simpa using starts
  · rwa [firstWord_append (endsWord_cons (by decide) v)]
  · rw [lastWord_append_cons (by decide)] at hb
    rw [List.append_assoc, List.cons_append, hv.operated hr form (fun _ => relation) he hb,
      List.append_assoc, List.cons_append]

theorem joined (hu : Rewritten rules u u') (ho : o ∈ spokenForms) (hv : Rewritten rules v v')
    (hn : firstWord v = "not".toList → o ∉ relationForms) :
    Rewritten rules (u ++ ' ' :: (o ++ ' ' :: v)) (u' ++ ' ' :: (say o ++ ' ' :: v')) := by
  refine hu.of_start (endsWord_cons (by decide) _) fun rest he hb => ?_
  rw [← List.cons_append, ← List.append_assoc, lastWord_append_cons (by decide)] at hb
  rw [List.cons_append, List.append_assoc, List.cons_append, hu.spaced hr, hv.operated hr ho hn he hb]
  simp

theorem linked {k : Kind} {w : String} (hw : (k, w) ∈ spokenOperators) (hu : Rewritten rules u u')
    (hv : Rewritten rules v v') :
    Rewritten rules (u ++ ' ' :: (w.toList ++ ' ' :: v)) (u' ++ ' ' :: (say w.toList ++ ' ' :: v')) :=
  hu.joined hr (form_of_spoken hw).1 hv fun _ => (form_of_spoken hw).2

theorem separated {k : Kind} (hu : Rewritten rules u u') (hc : (c, k) ∈ separators)
    (hl : lastWord u ≠ "it".toList) (hv : Rewritten rules v v') :
    Rewritten rules (u ++ c :: ' ' :: v) (u' ++ c :: ' ' :: v') := by
  have mark : ∀ p ∈ separators, isWordPart p.1 = false ∧ p.1 ≠ '"' := by decide
  obtain ⟨word, quote⟩ := mark _ hc
  refine hu.of_start (endsWord_cons word _) fun rest he hb => ?_
  rw [← List.singleton_append, ← List.append_assoc, lastWord_append_cons (by decide)] at hb
  rw [List.cons_append, List.cons_append, hu.apply _ (endsWord_cons word _) fun last => absurd last hl,
    hr.applyFrom_mark word quote, hr.applyFrom_mark (by decide) (by decide),
    show isBoundary ' ' = true by decide, hv.apply rest he hb]
  simp

theorem parens (hu : Rewritten rules u u') :
    Rewritten rules ('(' :: (u ++ [')'])) ('(' :: (u' ++ [')'])) where
  filled := nofun
  starts := by rintro _ ⟨⟩; decide
  first := .inr nil_not_mem_reservedWords
  apply rest _ _ := by
    have inner := hu.apply (')' :: rest) (endsWord_cons (by decide) rest) fun _ => rfl
    rw [List.cons_append, hr.applyFrom_mark (by decide) (by decide),
      show isBoundary '(' = true by decide, List.append_assoc, List.singleton_append, inner,
      hr.applyFrom_mark (by decide) (by decide), show isBoundary ')' = true by decide]
    simp

/-- Behind a sign no word is taken for an operator. -/
theorem minus (hv : Rewritten rules v v') (hf : firstWord v ∉ reservedWords) :
    Rewritten rules ('-' :: v) ('-' :: v') where
  filled := nofun
  starts := by rintro _ ⟨⟩; decide
  first := .inr nil_not_mem_reservedWords
  apply rest he hb := by
    have start : firstWord (v ++ rest) ∉ reservedWords := by rwa [firstWord_append he]
    rw [← List.nil_append ('-' :: v), lastWord_append_cons (by decide)] at hb
    rw [List.cons_append, hr.applyFrom_mark (by decide) (by decide), hr.applyFrom_fresh start,
      hv.apply rest he hb, List.cons_append]

theorem name (hn : IsName n) (hc : ∀ w ∈ blankSeparated n, w ∉ reservedWords) :
    Rewritten rules n n where
  filled := by
    obtain ⟨c, cs, rfl, -⟩ := hn.starts
    simp
  starts := by
    obtain ⟨c, cs, rfl, letter⟩ := hn.starts
    rintro _ ⟨⟩
    exact not_isBlank_of_isWordPart (by rw [isWordPart, letter]; rfl)
  first := by
    refine .inr ?_
    cases hn with
    | word hw =>
      rw [firstWord_of_wordPart hw.wordPart]
      exact hc _ (by rw [hw.separated]; simp)
    | join hw =>
      rw [firstWord_append (endsWord_cons (by decide) _), firstWord_of_wordPart hw.wordPart]
      exact hc _ (by rw [blankSeparated_append (by decide), hw.separated]; simp)
  apply rest he _ := hr.applyFrom_name hn hc he

theorem applied (hn : IsName n) (hc : ∀ w ∈ blankSeparated n, w ∉ reservedWords)
    (hv : Rewritten rules v v') : Rewritten rules (n ++ ' ' :: v) (n ++ ' ' :: v') := by
  have start := name hr hn hc
  refine start.of_start (endsWord_cons (by decide) _) fun rest he hb => ?_
  rw [lastWord_append_cons (by decide)] at hb
  rw [List.cons_append, start.spaced hr, hv.apply rest he hb]
  simp

theorem numeral (hn : IsNumeral n) : Rewritten rules n n := by
  obtain ⟨filled, digits⟩ := hn
  have part : ∀ c ∈ n, isWordPart c := fun c hc => by rw [isWordPart, digits c hc]; simp
  have unreserved : n ∉ reservedWords := by
    intro mem
    obtain ⟨-, letters⟩ := wordPart_reserved n mem
    cases n with
    | nil => exact filled rfl
    | cons c n =>
      exact not_isLetter_of_isDigit (digits c List.mem_cons_self)
        (List.all_eq_true.1 letters c List.mem_cons_self)
  refine ⟨filled, fun c hc => ?_, .inr ?_, fun rest he _ => hr.applyFrom_word part unreserved he⟩
  · exact not_isBlank_of_isWordPart (part c (List.mem_of_mem_head? hc))
  · rwa [firstWord_of_wordPart part]

theorem string (hv : '"' ∉ v) : Rewritten rules ('"' :: (v ++ ['"'])) ('"' :: (v ++ ['"'])) where
  filled := nofun
  starts := by rintro _ ⟨⟩; decide
  first := .inr nil_not_mem_reservedWords
  apply rest he _ := by
    have nothing : longest? rules ('"' :: (v ++ '"' :: rest)) = none :=
      hr.longest?_eq_none (endsWord_cons (by decide) _).unreserved
    rw [List.cons_append, List.append_assoc, List.singleton_append, applyFrom, nothing, ite_self]
    dsimp only
    rw [show (false ^^ '"' == '"') = true by decide, applyFrom_string hv, hr.applyFrom_fresh he.unreserved]
    simp

theorem marker : Rewritten rules ['?'] ['?'] where
  filled := nofun
  starts := by rintro _ ⟨⟩; decide
  first := .inr nil_not_mem_reservedWords
  apply rest he _ := by
    rw [List.singleton_append, hr.applyFrom_mark (by decide) (by decide), hr.applyFrom_fresh he.unreserved,
      List.singleton_append]

theorem it : Rewritten rules "it".toList (say "it".toList) where
  filled := by decide
  starts := by
    rw [show "it".toList = ['i', 't'] by decide]
    rintro _ ⟨⟩
    decide
  first := .inl (by decide)
  apply _ he hb := hr.applyFrom_it he (hb (by decide))

end Rewritten

/-- Nothing in the form is taken for something else where it is rendered. -/
def Shape.Clear : Shape Expr → Prop
  | .phrase name _ | .cast _ name => ∀ w ∈ blankSeparated name.toList, w ∉ reservedWords
  | .unary .minus operand => firstWord operand.display.toList ∉ reservedWords
  | .binary (.relation _) _ right => firstWord right.display.toList ≠ "not".toList
  | .tuple items | .collection items => ∀ e ∈ items.dropLast, lastWord e.display.toList ≠ "it".toList
  | _ => True

theorem form_of_operator {o : InfixOperator} {left right : Expr}
    (h : Shape.Worded (.binary o left right)) : o.spelling.toList ∈ spokenForms ∧
      ((∀ words, o ≠ .relation words) → o.spelling.toList ∉ relationForms) := by
  cases o with
  | relation words =>
    obtain ⟨s, hs, rfl⟩ := h
    have form : spokenForm s ∈ relationForms :=
      List.mem_map.2 ⟨(s, .relation), List.mem_filter.2 ⟨hs, rfl⟩, rfl⟩
    refine ⟨?_, fun no => absurd rfl (no _)⟩
    rw [InfixOperator.spelling, String.toList_ofList]
    exact List.mem_cons_of_mem _ (List.mem_append_right _ form)
  | _ => exact ⟨(form_of_spoken (mem_spokenOperators (by simp))).1, fun no =>
      (form_of_spoken (mem_spokenOperators no)).2⟩

namespace Expr

variable {rules : List Rewrite} {say : List Char → List Char}

theorem rewritten_spellAll (hr : Speaks rules say) {c : Char} {k : Kind} (hc : (c, k) ∈ separators)
    {es : List Expr} (hne : es ≠ []) (h : ∀ e ∈ es, Rewritten rules (e.spell id) (e.spell say))
    (hl : ∀ e ∈ es.dropLast, lastWord e.display.toList ≠ "it".toList) :
    Rewritten rules (spellAll id c es) (spellAll say c es) := by
  induction es with
  | nil => exact absurd rfl hne
  | cons e es ih =>
    obtain ⟨first, rest⟩ := List.forall_mem_cons.1 h
    cases es with
    | nil => exact first
    | cons f es =>
      rw [List.dropLast_cons_of_ne_nil (by simp)] at hl
      obtain ⟨last, others⟩ := List.forall_mem_cons.1 hl
      rw [display_eq] at last
      exact first.separated hr hc last (ih (by simp) rest others)

theorem rewritten_spell (hr : Speaks rules say) {e : Expr}
    (h : e.Everywhere fun s => s.Worded ∧ s.Clear) : Rewritten rules (e.spell id) (e.spell say) := by
  induction h with
  | @node s hs parts ih =>
    obtain ⟨worded, clear⟩ := hs
    cases s with
    | string value => exact .string hr worded
    | number digits => exact .numeral hr worded
    | it => exact .it hr
    | marker => exact .marker hr
    | phrase name argument =>
      cases argument with
      | none => exact .name hr worded.1 clear
      | some argument => exact .applied hr worded.1 clear (ih argument (by simp [Shape.children]))
    | property accessor source =>
      exact .linked hr (k := .ofWord) (w := "of") (by decide) (ih accessor (by simp [Shape.children]))
        (ih source (by simp [Shape.children]))
    | whose source filter =>
      exact .linked hr (k := .whoseWord) (w := "whose") (by decide)
        (ih source (by simp [Shape.children])) (ih filter (by simp [Shape.children]))
    | parens content => exact (ih content (by simp [Shape.children])).parens hr
    | cast source target =>
      exact .linked hr (k := .asWord) (w := "as") (by decide) (ih source (by simp [Shape.children]))
        (.name hr worded clear)
    | unary o operand =>
      have part := ih operand (by simp [Shape.children])
      cases o with
      | existence => exact part.spoken hr (o := "exists".toList) (by decide)
      | absence => exact part.spoken hr (o := "not exists".toList) (by decide)
      | negation => exact part.spoken hr (o := "not".toList) (by decide)
      | minus => exact part.minus hr (by rwa [← display_eq])
    | binary o left right =>
      have before := ih left (by simp [Shape.children])
      have after := ih right (by simp [Shape.children])
      have form := form_of_operator worded
      refine before.joined hr form.1 after fun starts => form.2 fun words same => ?_
      subst same
      rw [Shape.Clear, display_eq] at clear
      exact clear starts
    | tuple items => exact rewritten_spellAll hr (k := .comma) (by decide) worded ih clear
    | collection items => exact rewritten_spellAll hr (k := .semicolon) (by decide) worded ih clear
    | conditional c a b =>
      have branches := (ih a (by simp [Shape.children])).linked hr (k := .elseWord) (w := "else")
        (by decide) (ih b (by simp [Shape.children]))
      have rest := (ih c (by simp [Shape.children])).linked hr (k := .thenWord) (w := "then")
        (by decide) branches
      exact rest.spoken hr (o := "if".toList) (by decide)

/-- In the rendering the operators are rewritten, and nothing else is. -/
theorem rewriteKeywords_display {e : Expr} (h : e.Everywhere fun s => s.Worded ∧ s.Clear) :
    rewriteKeywords e.display.toList = e.spell rewriteKeywords := by
  have articles := (rewritten_spell speaks_articles h).apply [] nofun fun _ => rfl
  have keywords := (rewritten_spell speaks_keywords h).apply [] nofun fun _ => rfl
  have nothing (rules : List Rewrite) : applyFrom rules 0 false true [] = [] := rfl
  simp only [nothing, List.append_nil] at articles keywords
  rw [rewriteKeywords, applyAll, applyAll, display_eq, articles, keywords]

end Expr

end InventoryQuery
