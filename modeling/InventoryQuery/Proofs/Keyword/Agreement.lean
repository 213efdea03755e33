import Mathlib.Data.List.Forall2
import InventoryQuery.Proofs.Grammar.Blame
import InventoryQuery.Proofs.Keyword.Steps
import InventoryQuery.Proofs.Token.Longest

/-! The reserved phrases that are rewritten and the tokens that start with the sentinel. Every word that
is written is one token, since no token can go on over the boundary behind it; every other token is made
of characters that were copied, and where a string starts for the one it starts for the other. -/

namespace InventoryQuery

open Lexeme Rewrite

namespace Rewrite

theorem take_gap (w rest : List Char) (k : Nat) :
    (w ++ rest).take (w.length + (rest.takeWhile isBlank).length + k) =
      w ++ (rest.takeWhile isBlank ++ (rest.dropWhile isBlank).take k) := by
  rw [Nat.add_assoc, List.take_length_add_append, List.take_add, drop_takeWhile,
    ← List.prefix_iff_eq_take.1 (List.takeWhile_prefix isBlank)]

/-- What a phrase takes of the text are its words, with blanks between them. -/
theorem separated_of_reach? {ws : List (List Char)} (hw : ∀ w ∈ ws, w ≠ [] ∧ ∀ c ∈ w, Inner c)
    {cs : List Char} {n : Nat} (h : reach? ws cs = some n) : blankSeparated (cs.take n) = ws := by
  have solid {w : List Char} (hw : w ≠ [] ∧ ∀ c ∈ w, Inner c) : blankSeparated w = [w] := by
    refine blankSeparated_go_word [] (fun c hc => ?_) hw.1
    exact (Bool.or_eq_false_iff.1 (Bool.or_eq_false_iff.1 (hw.2 c hc).1).1).1
  induction ws generalizing cs n with
  | nil =>
    obtain rfl : 0 = n := Option.some.inj h
    rfl
  | cons w ws ih =>
    obtain ⟨first, others⟩ := List.forall_mem_cons.1 hw
    cases ws with
    | nil =>
      obtain ⟨rest, rfl, -, rfl⟩ := reach?_singleton_iff.1 h
      rw [List.take_left, solid first]
    | cons v ws =>
      obtain ⟨rest, k, rfl, gap, hk, rfl⟩ := reach?_cons_cons_iff.1 h
      have later := ih others hk
      have blanks : ∀ c ∈ rest.takeWhile isBlank, isBlank c := fun c => List.mem_takeWhile_imp
      rw [take_gap]
      generalize rest.takeWhile isBlank = run at gap blanks
      cases run with
      | nil => exact absurd rfl gap
      | cons b run =>
        obtain ⟨hb, more⟩ := List.forall_mem_cons.1 blanks
        rw [List.cons_append, blankSeparated_append hb, blankSeparated_blanks more, solid first, later]
        rfl

end Rewrite

namespace Keyword

/-- The words that are cut as one token are those that phrases are rewritten to. -/
theorem perm_reserved :
    (reserved.map fun p => (sentinel :: p.1.toList, p.2)).Perm (all.map fun k => (k.written, k.kind)) := by
  decide +kernel

theorem written_spelling {k : Keyword} (hk : k ∈ all) : (k.written, k.kind) ∈ spellings :=
  List.mem_append_left _ (perm_reserved.mem_iff.2 (List.mem_map_of_mem hk))

theorem spoken_written : ∀ k ∈ all, spokenForm k.written = [' '].intercalate k.words := by
  decide +kernel

theorem kind_keyword : ∀ k ∈ all, k.kind.isKeyword ∨ k.kind = .relation := by decide

/-- A boundary ends the token, whatever spellings begin with this one. -/
theorem longest_written {k : Keyword} (hk : k ∈ all) {rest : List Char}
    (stop : rest.head?.all isBoundary) : LongestMatch (k.written ++ rest) k.kind k.written := by
  have solid : ∀ s ∈ spellings, s.1.head? = some sentinel → s.1.all (decide <| Inner ·) := by
    decide +kernel
  refine ⟨List.prefix_append _ _, .spelling (written_spelling hk), fun j v hv start => ?_⟩
  obtain ⟨c, v, rfl⟩ := hv.starts
  obtain rfl : c = sentinel := (List.cons_prefix_cons.1 start).1
  have other := hv.of_sign (by decide) (by decide) (by decide) (by decide)
  have inner : ∀ c ∈ sentinel :: v, Inner c := by simpa using solid _ other rfl
  have within : sentinel :: v <+: k.written := by
    rcases List.prefix_or_prefix_of_prefix start (List.prefix_append k.written rest) with le | ⟨more, longer⟩
    · exact le
    · rw [← longer, List.prefix_append_right_inj] at start
      cases more with
      | nil => rw [← longer, List.append_nil]
      | cons b more =>
        obtain ⟨tail, rfl⟩ := start
        have := (inner b (by rw [← longer]; simp)).1
        rw [show isBoundary b = true from stop] at this
        cases this
  rcases Nat.lt_or_eq_of_le within.length_le with less | equal
  · exact .inl less
  · have same := within.eq_of_length equal
    exact .inr ⟨same, spelling_kind _ other _ (written_spelling hk) same⟩

theorem allFrom_written {k : Keyword} (hk : k ∈ all) {rest : List Char}
    (stop : rest.head?.all isBoundary) (offset : Nat) : allFrom offset 0 (k.written ++ rest) =
      ⟨k.kind, k.written, offset⟩ :: allFrom (offset + byteSize k.written) 0 rest := by
  have longest := longest_written hk stop
  obtain ⟨w, hw⟩ : ∃ w, k.written = sentinel :: w := ⟨_, rfl⟩
  rw [hw, List.cons_append] at longest ⊢
  rw [allFrom_cons, longest.next_eq, List.take_left, List.drop_left]

end Keyword

def CopiedToken (c : Char) (cs : List Char) : Prop := ∃ w rest fresh, cs = w ++ rest ∧
  stepsFrom writeKeywords 0 (c == '"') (isBoundary c) cs =
    w.map .copied ++ stepsFrom writeKeywords 0 false fresh rest ∧
  (next c (applyFrom writeKeywords 0 (c == '"') (isBoundary c) cs)).2 = w.length

section copied

variable {c : Char} {cs : List Char}

theorem copied_blanks (hc : isSpace c) : CopiedToken c cs := by
  have boundary := isBoundary_of_isSpace hc
  have blanks : ∀ d ∈ cs.takeWhile isSpace, isBoundary d := fun d hd =>
    isBoundary_of_isSpace (List.mem_takeWhile_imp hd)
  have run := stepsFrom_run plain_writeKeywords solid_writeKeywords blanks (cs.dropWhile isSpace)
  rw [List.takeWhile_append_dropWhile] at run
  obtain ⟨same, -⟩ := run_of_applyFrom plain_writeKeywords solid_writeKeywords marked_writeKeywords
    (fun d => isBoundary_of_isSpace) true cs
  refine ⟨cs.takeWhile isSpace, cs.dropWhile isSpace, true, List.takeWhile_append_dropWhile.symm, ?_, ?_⟩
  · rw [beq_eq_false_iff_ne.2 (ne_quote_of_isBoundary boundary), boundary, run]
  · rw [beq_eq_false_iff_ne.2 (ne_quote_of_isBoundary boundary), boundary, next, if_pos hc, same]

/-- Within a word or a sign nothing is replaced. -/
theorem copied_inner {w out : List Char} (hc : Inner c) (hw : ∀ d ∈ w, Inner d)
    (split : applyFrom writeKeywords 0 (c == '"') (isBoundary c) cs = w ++ out)
    (length : (next c (w ++ out)).2 = w.length) : CopiedToken c cs := by
  obtain ⟨boundary, quote⟩ := hc
  rw [← split] at length
  rw [beq_eq_false_iff_ne.2 quote, boundary] at split
  obtain ⟨rest, rfl, -⟩ := word_of_applyFrom hw split
  refine ⟨w, rest, false, rfl, ?_, length⟩
  rw [beq_eq_false_iff_ne.2 quote, boundary, stepsFrom_word hw]

theorem copied_run {p : Char → Bool} (hp : ∀ d, p d → isWordPart d) (hc : isWordPart c)
    (length : ∀ out, (next c out).2 = (out.takeWhile p).length) : CopiedToken c cs := by
  have split := List.takeWhile_append_dropWhile (p := p)
    (l := applyFrom writeKeywords 0 (c == '"') (isBoundary c) cs)
  refine copied_inner (inner_of_isWordPart hc) (fun d hd => ?_) split.symm ?_
  · exact inner_of_isWordPart (hp d (List.mem_takeWhile_imp hd))
  · rw [split, length]

/-- Quotes are copied, so a string ends where it ended before. -/
theorem copied_string : CopiedToken '"' cs := by
  by_cases closed : '"' ∈ cs
  · obtain ⟨body, rest, rfl, clean⟩ := List.eq_append_cons_of_mem closed
    have copied : stepsFrom writeKeywords 0 true false (body ++ '"' :: rest) =
        (body ++ ['"']).map .copied ++ stepsFrom writeKeywords 0 false false rest := by
      rw [stepsFrom_quoted clean, stepsFrom_copied copies_string, List.map_append, List.append_assoc]
      rfl
    refine ⟨body ++ ['"'], rest, false, by simp, copied, ?_⟩
    have out := applyFrom_of_copied copied
    rw [List.append_assoc, List.singleton_append] at out
    change (next '"' (applyFrom writeKeywords 0 true false _)).2 = _
    rw [out, next_string clean, List.length_append, List.length_singleton]
  · have copied : stepsFrom writeKeywords 0 true false cs =
        cs.map .copied ++ stepsFrom writeKeywords 0 false false [] := by
      conv_lhs => rw [← List.append_nil cs, stepsFrom_quoted closed]
      rfl
    refine ⟨cs, [], false, (List.append_nil cs).symm, copied, ?_⟩
    change (next '"' (applyFrom writeKeywords 0 true false cs)).2 = _
    rw [applyFrom_unclosed closed, next_unclosed closed]

theorem copied_single (quote : c ≠ '"')
    (length : (next c (applyFrom writeKeywords 0 (c == '"') (isBoundary c) cs)).2 = 0) :
    CopiedToken c cs :=
  ⟨[], cs, isBoundary c, rfl, by rw [beq_eq_false_iff_ne.2 quote]; rfl, length⟩

theorem copied_token (c : Char) (cs : List Char) : CopiedToken c cs := by
  by_cases space : isSpace c
  · exact copied_blanks space
  by_cases letter : isLetter c
  · refine copied_run (p := isWordPart) (fun d => id) (isWordPart_of_isLetter letter) fun out => ?_
    rw [next, if_neg space, if_pos letter]
  by_cases digit : isDigit c
  · refine copied_run (p := isDigit) (fun d => isWordPart_of_isDigit) (isWordPart_of_isDigit digit)
      fun out => ?_
    rw [next, if_neg space, if_neg letter, if_pos digit]
  by_cases quote : c = '"'
  · subst quote
    exact copied_string
  have sign (out : List Char) : (next c out).2 =
      ((longestSpelling? (c :: out)).elim 0 fun found => found.2 - 1) := by
    rw [next, if_neg space, if_neg letter, if_neg digit, if_neg quote]
    cases longestSpelling? (c :: out) <;> rfl
  have length := sign (applyFrom writeKeywords 0 (c == '"') (isBoundary c) cs)
  cases found : longestSpelling? (c :: applyFrom writeKeywords 0 (c == '"') (isBoundary c) cs) with
  | none => exact copied_single quote (by rw [length, found]; rfl)
  | some b =>
    rw [found] at length
    obtain ⟨⟨spelling, k⟩, mem, -, size, start⟩ := longestSpelling?_mem found
    obtain ⟨d, w, rfl, -⟩ := starts_spelling _ mem
    obtain ⟨rfl, out, split⟩ := List.cons_prefix_cons.1 start
    have size : b.2 - 1 = w.length := by rw [← size]; rfl
    rcases inner_spelling _ mem with single | inner
    · obtain rfl : w = [] := single
      exact copied_single quote (length.trans size)
    · obtain ⟨first, others⟩ := List.forall_mem_cons.1 inner
      rw [← split] at length
      exact copied_inner first others split.symm (length.trans size)

end copied

/-- A phrase that was replaced, and where its word stands in the rewritten text. -/
structure Written where
  place : Nat
  rule : Rewrite
  taken : List Char
  deriving Repr, DecidableEq

/-- What the steps write, from a byte of the rewritten text on. -/
def writtenFrom : (place : Nat) → List Step → List Written
  | _, [] => []
  | place, .copied c :: steps => writtenFrom (place + c.utf8Size) steps
  | place, .replaced rule taken :: steps =>
    ⟨place, rule, taken⟩ :: writtenFrom (place + byteSize rule.output) steps

theorem writtenFrom_copied (place : Nat) (w : List Char) (steps : List Step) :
    writtenFrom place (w.map .copied ++ steps) = writtenFrom (place + byteSize w) steps := by
  induction w generalizing place with
  | nil => rfl
  | cons c w ih => exact (ih _).trans (by rw [byteSize_cons, Nat.add_assoc])

def Token.isMarked (t : Token) : Bool := t.text.head? = some sentinel

/-- The token is the word that was written for the phrase, and says what the phrase says. -/
structure StandsFor (t : Token) (p : Written) : Prop where
  place : t.start = p.place
  text : t.text = p.rule.output
  rule : ∃ k ∈ Keyword.all, p.rule = ⟨k.words, k.written⟩ ∧ t.kind = k.kind
  kind : t.kind.isKeyword ∨ t.kind = .relation
  spoken : spokenForm t.text = [' '].intercalate (blankSeparated p.taken)

theorem standsFor_written {k : Keyword} (hk : k ∈ Keyword.all) {cs : List Char} {n : Nat}
    (h : reach? k.words cs = some n) (place : Nat) :
    StandsFor ⟨k.kind, k.written, place⟩ ⟨place, ⟨k.words, k.written⟩, cs.take n⟩ where
  place := rfl
  text := rfl
  rule := ⟨k, hk, rfl, rfl⟩
  kind := Keyword.kind_keyword k hk
  spoken := by
    have mem : (⟨k.words, k.written⟩ : Rewrite) ∈ writeKeywords := List.mem_map_of_mem hk
    rw [separated_of_reach? (fun w hw => ⟨((plain_writeKeywords _ mem).2.1 w hw).1,
      solid_writeKeywords _ mem w hw⟩) h]
    exact Keyword.spoken_written k hk

theorem standsFor_lexemes {cs : List Char} (hc : sentinel ∉ cs) (fresh : Bool) (place : Nat) :
    List.Forall₂ StandsFor
      ((allFrom place 0 (applyFrom writeKeywords 0 false fresh cs)).filter Token.isMarked)
      (writtenFrom place (stepsFrom writeKeywords 0 false fresh cs)) := by
  induction hl : cs.length using Nat.strongRecOn generalizing cs fresh place with
  | ind l ih =>
    cases cs with
    | nil => exact .nil
    | cons c cs =>
      by_cases copies : Copies writeKeywords false fresh (c :: cs)
      · obtain ⟨w, rest, fresh', rfl, copied, length⟩ := copied_token c cs
        obtain ⟨unmarked, clean⟩ := not_or.1 (mt List.mem_cons.2 hc)
        have taken : stepsFrom writeKeywords 0 false fresh (c :: (w ++ rest)) =
            (c :: w).map .copied ++ stepsFrom writeKeywords 0 false fresh' rest := by
          rw [stepsFrom_copied copies, Bool.false_xor, copied]
          rfl
        rw [applyFrom_of_copied copied] at length
        rw [applyFrom_of_copied taken, taken, writtenFrom_copied, List.cons_append, allFrom_cons,
          length, List.take_left, List.drop_left, List.filter_cons_of_neg]
        · refine ih _ ?_ (fun mem => clean (List.mem_append_right w mem)) fresh' _ rfl
          simp only [← hl, List.length_cons, List.length_append]
          omega
        · simpa [Token.isMarked] using Ne.symm unmarked
      · obtain ⟨-, rfl, r, w, rest, split, taken⟩ := exists_takes plain_writeKeywords copies
        have stop := taken.stop plain_writeKeywords
        rw [split] at hc hl ⊢
        obtain ⟨k, hk, rfl⟩ := List.mem_map.1 taken.mem
        have stop' : (applyFrom writeKeywords 0 false false rest).head?.all isBoundary := by
          cases rest with
          | nil => rfl
          | cons b rest => rwa [applyFrom_boundary plain_writeKeywords solid_writeKeywords stop]
        have this := standsFor_written hk (longest?_mem taken.found).2 place
        rw [List.take_left] at this
        rw [applyFrom_replaced plain_writeKeywords solid_writeKeywords taken,
          stepsFrom_replaced plain_writeKeywords solid_writeKeywords taken,
          Keyword.allFrom_written hk stop', List.filter_cons_of_pos rfl, writtenFrom]
        refine .cons this (ih _ ?_ (fun mem => hc (List.mem_append_right w mem)) false _ rfl)
        have := List.length_pos_iff.2 taken.filled
        rw [← hl, List.length_append]
        omega

def Token.Unmarked (t : Token) : Prop := ∃ c w, t.text = c :: w ∧ c ≠ sentinel

theorem Token.Unmarked.isMarked {t : Token} (h : t.Unmarked) : t.isMarked = false := by
  obtain ⟨c, w, text, other⟩ := h
  simp [Token.isMarked, text, other]

theorem unmarked_lexemes (text : List Char) : ∀ t ∈ lexemes text,
    t.kind = .blank ∨ t.kind = .word → t.Unmarked := by
  suffices h : ∀ offset, ∀ t ∈ allFrom offset 0 text, t.kind = .blank ∨ t.kind = .word → t.Unmarked from h 0
  induction text using text_induction with
  | nil => simp [allFrom]
  | cons c cs ih =>
    intro offset
    rw [allFrom_cons]
    refine List.forall_mem_cons.2 ⟨fun kind => ⟨c, _, rfl, ?_⟩, ih _⟩
    rintro rfl
    obtain ⟨blank, word⟩ := next_ne_word (c := sentinel) (by decide) (by decide) cs
    exact kind.elim blank word

/-- Joining words neither adds nor loses a token that starts with the sentinel. -/
theorem filter_isMarked_tokens (text : List Char) :
    (tokens text).dropLast.filter Token.isMarked = (lexemes text).filter Token.isMarked := by
  have unmarked := unmarked_lexemes text
  have joins : Token.Joins Token.Unmarked (lexemes text) (tokens text).dropLast := by
    refine joins_tokens (fun p u v first => ?_) fun t ht word => unmarked t ht (.inr word)
    obtain ⟨c, w, text, other⟩ := first
    exact ⟨c, w ++ u ++ v, by simp [text], other⟩
  exact joins.filter_eq (fun t => Token.Unmarked.isMarked) fun t ht kind => (unmarked t ht kind).isMarked

theorem applyFrom_subset {rules : List Rewrite} (hp : ∀ r ∈ rules, r.Plain) (hr : ∀ r ∈ rules, r.output = [])
    (inString fresh : Bool) (cs : List Char) : applyFrom rules 0 inString fresh cs ⊆ cs := by
  induction inString, fresh, cs using pass_induction hp with
  | nil => exact List.Subset.refl _
  | copied inString fresh c cs copies ih =>
    rw [applyFrom_copied copies]
    exact List.cons_subset_cons c ih
  | replaced r w rest taken ih =>
    rw [taken.applyFrom_eq, hr r taken.mem, List.nil_append]
    exact List.Subset.trans (ih _) (List.subset_append_right w rest)

theorem standsFor_tokens {text : List Char} (h : '$' ∉ text) :
    List.Forall₂ StandsFor ((tokens (rewriteKeywords text)).filter Token.isMarked)
      (writtenFrom 0 (stepsFrom writeKeywords 0 false true (applyAll dropArticles text))) := by
  have clean : sentinel ∉ applyAll dropArticles text := fun mem =>
    h (applyFrom_subset plain_dropArticles (by decide) false true text mem)
  have marked := standsFor_lexemes clean true 0
  have last : [Token.endOf (rewriteKeywords text)].filter Token.isMarked = [] := rfl
  rw [tokens_eq, List.filter_append, last, List.append_nil, filter_isMarked_tokens]
  exact marked

/-- No keyword is reported as unknown where none was written by hand. -/
theorem code_ne_unknownKeyword {text : List Char} (h : '$' ∉ text) {e : SyntaxError}
    (he : compile text = .error e) : e.code ≠ .unknownKeyword := by
  intro code
  have parsed : parseTokens (tokens (rewriteKeywords text)) = .error e := by
    unfold compile parse at he
    cases hp : parseTokens (tokens (rewriteKeywords text)) with
    | error e' => rw [hp] at he; exact he
    | ok t => rw [hp] at he; cases he
  obtain ⟨t, mem, fault⟩ := exists_fault_of_error parsed (by rw [code]; rfl)
  rw [code] at fault
  obtain ⟨invalid, marked⟩ : t.kind = .invalid ∧ t.isMarked := by
    unfold Token.fault? at fault
    split at fault
    · rename_i invalid
      split at fault
      · cases fault
      · rename_i rest text
        exact ⟨invalid, by simp [Token.isMarked, text, sentinel]⟩
      · cases fault
    · cases fault
  have kinds := ((List.forall₂_and_left _ _).1 ((standsFor_tokens h).imp fun t p standsFor =>
    (⟨standsFor.kind, standsFor⟩ : (t.kind.isKeyword ∨ t.kind = .relation) ∧ StandsFor t p))).1
  have kind := kinds t (List.mem_filter.2 ⟨mem, marked⟩)
  rw [invalid] at kind
  exact absurd kind (by decide)

/-- What the second pass of rewriting does, step by step. -/
def keywordSteps (text : List Char) : List Step :=
  stepsFrom writeKeywords 0 false true (applyAll dropArticles text)

/-- The second pass of rewriting and the tokens agree on the reserved phrases. Read step by step, the
pass turns the text without its articles into the rewritten text; the tokens that start with the
sentinel stand for the phrases that it replaces, one for one and in order. -/
theorem keywords_agree (text : List Char) (h : '$' ∉ text) :
    (keywordSteps text).flatMap Step.input = applyAll dropArticles text ∧
    (keywordSteps text).flatMap Step.output = rewriteKeywords text ∧
    List.Forall₂ StandsFor ((tokens (rewriteKeywords text)).filter Token.isMarked)
      (writtenFrom 0 (keywordSteps text)) ∧
    ∀ e, compile text = .error e → e.code ≠ .unknownKeyword :=
  ⟨flatMap_input plain_writeKeywords solid_writeKeywords false true _, flatMap_output writeKeywords 0 false true _,
    standsFor_tokens h, fun _ => code_ne_unknownKeyword h⟩

theorem keywords_agree_in_filter :
    '$' ∉ "names whose (it is  not an 3) of files".toList ∧
    ∃ ts, (tokens (rewriteKeywords "names whose (it is  not an 3) of files".toList)).filter Token.isMarked = ts ∧
      ts.map (fun t => (t.kind, String.ofList t.text, t.start)) =
        [(.whoseWord, "$whose", 6), (.itWord, "$it", 14), (.relation, "$is-not", 18), (.ofWord, "$of", 30)] ∧
      List.Forall₂ StandsFor ts
        (writtenFrom 0 (keywordSteps "names whose (it is  not an 3) of files".toList)) :=
  ⟨by decide, _, rfl, by decide +kernel, (keywords_agree _ (by decide)).2.2.1⟩

end InventoryQuery
