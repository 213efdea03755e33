import InventoryQuery.Proofs.Grammar.Lockstep
import InventoryQuery.Proofs.Layout.Respaced

/-! The tokens of texts that differ in blanks. Both texts have the same tokens between their blanks,
but for a quote that is never closed, and a phrase is joined from the same words. So the grammar
cannot tell the two rows of tokens from one another, except by their places. -/

namespace InventoryQuery

open Lexeme Grammar

theorem inner_of_isWordPart {c : Char} (h : isWordPart c) : Inner c := by
  have boundary : isBoundary c = false := by
    have paren (d : Char) (hd : isWordPart d = false) : c ≠ d := by
      rintro rfl
      rw [hd] at h
      cases h
    simp [isBoundary, not_isBlank_of_isWordPart h, paren '(' (by decide), paren ')' (by decide)]
  refine ⟨boundary, ?_⟩
  rintro rfl
  exact absurd h (by decide)

theorem isWordPart_of_isDigit {c : Char} (h : isDigit c) : isWordPart c := by simp [isWordPart, h]

theorem isWordPart_of_isLetter {c : Char} (h : isLetter c) : isWordPart c := by simp [isWordPart, h]

namespace Lexeme

theorem inner_spelling : ∀ s ∈ spellings, s.1.tail = [] ∨ ∀ c ∈ s.1, Inner c := by
  have table : ∀ s ∈ spellings, s.1.tail = [] ∨ s.1.all (decide <| Inner ·) := by decide +kernel
  simpa only [List.all_eq_true, decide_eq_true_eq] using table

section next

variable {c : Char} {cs ds : List Char}

/-- A spelling that starts the one text starts the other. -/
theorem spelling_respaced (quote : c ≠ '"') {w rest : List Char}
    (h : Respaced (c == '"') (isBoundary c) (w ++ rest) ds) {k : Kind} (hs : (c :: w, k) ∈ spellings) :
    ∃ rest' fresh, ds = w ++ rest' ∧ Respaced false fresh rest rest' := by
  rw [beq_eq_false_iff_ne.2 quote] at h
  rcases inner_spelling _ hs with single | inner
  · obtain rfl : w = [] := single
    exact ⟨ds, _, rfl, h⟩
  · obtain ⟨⟨boundary, -⟩, inner⟩ := List.forall_mem_cons.1 inner
    rw [boundary] at h
    obtain ⟨rest', rfl, later⟩ := h.word inner
    exact ⟨rest', false, rfl, later⟩

theorem prefix_respaced (quote : c ≠ '"') (h : Respaced (c == '"') (isBoundary c) cs ds)
    {s : List Char × Kind} (hs : s ∈ spellings) (hp : s.1 <+: c :: cs) : s.1 <+: c :: ds := by
  obtain ⟨spelling, k⟩ := s
  obtain ⟨rest, split⟩ := hp
  cases spelling with
  | nil => exact List.nil_prefix
  | cons d w =>
    obtain ⟨rfl, rfl⟩ := List.cons_eq_cons.1 split
    obtain ⟨rest', -, rfl, -⟩ := spelling_respaced quote h hs
    exact ⟨rest', rfl⟩

theorem longestSpelling?_respaced (quote : c ≠ '"')
    (h : Respaced (c == '"') (isBoundary c) cs ds) :
    longestSpelling? (c :: cs) = longestSpelling? (c :: ds) := by
  refine List.foldl_ext _ _ none fun best s hs => ?_
  have same : s.1.isPrefixOf (c :: cs) = s.1.isPrefixOf (c :: ds) := by
    rw [Bool.eq_iff_iff, List.isPrefixOf_iff_prefix, List.isPrefixOf_iff_prefix]
    have h' := h.symm
    exact ⟨prefix_respaced quote h hs, prefix_respaced quote h' hs⟩
  rw [longerSpelling, longerSpelling, same]

/-- Both texts go on with the same token, or a quote is never closed in either. -/
theorem next_respaced (hc : ¬ isSpace c) (h : Respaced (c == '"') (isBoundary c) cs ds) :
    (∃ k w rest rest' fresh, cs = w ++ rest ∧ ds = w ++ rest' ∧ next c cs = (k, w.length) ∧
      next c ds = (k, w.length) ∧ Respaced false fresh rest rest') ∨
    (c = '"' ∧ '"' ∉ cs ∧ '"' ∉ ds) := by
  have run {p : Char → Bool} (hp : ∀ c, p c → isWordPart c) (first : isWordPart c) :
      ∃ w rest rest', cs = w ++ rest ∧ ds = w ++ rest' ∧ cs.takeWhile p = w ∧ ds.takeWhile p = w ∧
        Respaced false false rest rest' := by
    obtain ⟨boundary, quote⟩ := inner_of_isWordPart first
    rw [boundary, beq_eq_false_iff_ne.2 quote] at h
    obtain ⟨same, later⟩ := h.takeWhile fun c hc => inner_of_isWordPart (hp c hc)
    refine ⟨cs.takeWhile p, _, _, List.takeWhile_append_dropWhile.symm, ?_, rfl, same.symm, later⟩
    rw [same, List.takeWhile_append_dropWhile]
  by_cases letter : isLetter c
  · obtain ⟨w, rest, rest', left, right, taken, taken', later⟩ :=
      run (fun _ => id) (isWordPart_of_isLetter letter)
    refine .inl ⟨.word, w, rest, rest', false, left, right, ?_, ?_, later⟩
    · rw [next, if_neg hc, if_pos letter, taken]
    · rw [next, if_neg hc, if_pos letter, taken']
  by_cases digit : isDigit c
  · obtain ⟨w, rest, rest', left, right, taken, taken', later⟩ :=
      run (fun _ => isWordPart_of_isDigit) (isWordPart_of_isDigit digit)
    refine .inl ⟨.numeral, w, rest, rest', false, left, right, ?_, ?_, later⟩
    · rw [next, if_neg hc, if_neg letter, if_pos digit, taken]
    · rw [next, if_neg hc, if_neg letter, if_pos digit, taken']
  by_cases quote : c = '"'
  · subst quote
    rcases h.string with ⟨body, rest, rest', clean, rfl, rfl, later⟩ | other
    · have length : (body ++ ['"']).length = body.length + 1 := by simp
      refine .inl ⟨.string, body ++ ['"'], rest, rest', false, by simp, by simp, ?_, ?_, later⟩
      · rw [next_string clean, length]
      · rw [next_string clean, length]
    · exact .inr ⟨rfl, other⟩
  have spelled (cs : List Char) : next c cs =
      (longestSpelling? (c :: cs)).elim (.invalid, 0) fun found => (found.1, found.2 - 1) := by
    rw [next, if_neg hc, if_neg letter, if_neg digit, if_neg quote]
    cases longestSpelling? (c :: cs) <;> rfl
  have same := longestSpelling?_respaced quote h
  rw [spelled, spelled, ← same]
  cases hl : longestSpelling? (c :: cs) with
  | none =>
    rw [beq_eq_false_iff_ne.2 quote] at h
    exact .inl ⟨.invalid, [], cs, ds, isBoundary c, rfl, rfl, rfl, rfl, h⟩
  | some found =>
    obtain ⟨k, n⟩ := found
    obtain ⟨⟨spelling, k⟩, hs, rfl, rfl, rest, split⟩ := longestSpelling?_mem hl
    have filled : ∀ s ∈ spellings, s.1 ≠ [] := by decide +kernel
    cases spelling with
    | nil => exact absurd rfl (filled _ hs)
    | cons d w =>
      obtain ⟨rfl, rfl⟩ := List.cons_eq_cons.1 split
      obtain ⟨rest', fresh, rfl, later⟩ := spelling_respaced quote h hs
      exact .inl ⟨k, w, rest, rest', fresh, rfl, rfl, rfl, rfl, later⟩

theorem next_unclosed (h : '"' ∉ cs) : next '"' cs = (.invalid, cs.length) := by
  have all : cs.takeWhile (· ≠ '"') = cs := by
    refine List.takeWhile_eq_self_iff.2 fun d hd => ?_
    have : d ≠ '"' := by
      rintro rfl
      exact h hd
    simpa using this
  unfold next
  rw [if_neg (by decide), if_neg (by decide), if_neg (by decide), if_pos rfl, all]
  simp

end next

end Lexeme

namespace Token

variable {cs ds : List Char}

/-- A phrase is being collected, and if no blank has come since its last word, that word has ended. -/
def Waiting (gap cs : List Char) (open? : Option Token) : Prop :=
  ∀ p ∈ open?, p.kind = .phrase ∧ (gap = [] → ∀ c ∈ cs.head?, ¬ isWordPart c)

theorem waiting_none {gap : List Char} : Waiting gap cs none := by simp [Waiting]

/-- Blanks in front are added to the gap. -/
theorem joinWords_spaces (open? : Option Token) (gap : List Char) (offset : Nat) (cs : List Char) :
    ∃ offset', joinWords open? gap (allFrom offset 0 cs) =
      joinWords open? (gap ++ cs.takeWhile isSpace) (allFrom offset' 0 (cs.dropWhile isSpace)) := by
  have stop : ∀ c ∈ (cs.dropWhile isSpace).head?, ¬ isSpace c := by
    intro c hc
    have := List.head?_dropWhile_not isSpace cs
    rw [Option.mem_def.1 hc] at this
    simpa using this
  by_cases tight : cs.takeWhile isSpace = []
  · have same : cs.dropWhile isSpace = cs := by
      conv_rhs => rw [← List.takeWhile_append_dropWhile (p := isSpace) (l := cs), tight]
      rfl
    exact ⟨offset, by rw [tight, same, List.append_nil]⟩
  · have blanks := allFrom_blanks tight (fun c => List.mem_takeWhile_imp) stop offset
    rw [List.takeWhile_append_dropWhile] at blanks
    exact ⟨_, by rw [blanks, joinWords_blank rfl]⟩

theorem Waiting.widen {gap : List Char} {o : Option Token} (h : Waiting gap cs o) :
    Waiting (gap ++ cs.takeWhile isSpace) (cs.dropWhile isSpace) o := by
  refine fun p hp => ⟨(h p hp).1, fun tight => ?_⟩
  obtain ⟨empty, run⟩ := List.append_eq_nil_iff.1 tight
  have all : cs.dropWhile isSpace = cs := by
    conv_rhs => rw [← List.takeWhile_append_dropWhile (p := isSpace) (l := cs), run]
    rfl
  rw [all]
  exact (h p hp).2 empty

/-- Phrases of the same words are the same to the grammar. -/
theorem sense_waiting {gap gap' : List Char} {o o' : Option Token} (ho : Waiting gap cs o)
    (ho' : Waiting gap' ds o') (same : o.map (blankSeparated ·.text) = o'.map (blankSeparated ·.text)) :
    o.toList.map sense = o'.toList.map sense := by
  cases o with
  | none =>
    cases o' with
    | none => rfl
    | some p' => cases same
  | some p =>
    cases o' with
    | none => cases same
    | some p' =>
      have words : blankSeparated p.text = blankSeparated p'.text := Option.some.inj same
      simp [sense, (ho p rfl).1, (ho' p' rfl).1, phraseName, words]

/-- What has been collected once a word is there, by its words. -/
theorem separated_collected {gap cs : List Char} {o : Option Token} (hg : ∀ c ∈ gap, isSpace c)
    {w : List Char} (hw : IsWord w) (ho : Waiting gap (w ++ cs) o) (offset : Nat) :
    blankSeparated (o.elim (⟨.phrase, w, offset⟩ : Token) fun p =>
      { p with text := p.text ++ gap ++ w }).text =
      (o.map (blankSeparated ·.text)).getD [] ++ [w] := by
  cases o with
  | none => exact hw.separated
  | some p =>
    have apart : gap ≠ [] := by
      obtain ⟨c, cs, rfl, letter, -⟩ := hw
      exact fun tight => (ho p rfl).2 tight c rfl (isWordPart_of_isLetter letter)
    exact hw.separated_append hg apart p.text

theorem waiting_collected {gap cs ds w : List Char} {o : Option Token} (ho : Waiting gap ds o)
    (stop : ∀ c ∈ cs.head?, ¬ isWordPart c) (offset : Nat) :
    Waiting [] cs (some (o.elim (⟨.phrase, w, offset⟩ : Token) fun p =>
      { p with text := p.text ++ gap ++ w })) := by
  rintro _ ⟨⟩
  cases o with
  | none => exact ⟨rfl, fun _ => stop⟩
  | some p => exact ⟨(ho p rfl).1, fun _ => stop⟩

theorem wide_gap {gap : List Char} (h : ∀ c ∈ gap, isSpace c) (cs : List Char) :
    ∀ c ∈ gap ++ cs.takeWhile isSpace, isSpace c :=
  fun c hc => (List.mem_append.1 hc).elim (h c) List.mem_takeWhile_imp

theorem sense_joinWords {fresh : Bool} (h : Respaced false fresh cs ds) {o o' : Option Token}
    {gap gap' : List Char} (hg : ∀ c ∈ gap, isSpace c) (hg' : ∀ c ∈ gap', isSpace c)
    (ho : Waiting gap cs o) (ho' : Waiting gap' ds o')
    (same : o.map (blankSeparated ·.text) = o'.map (blankSeparated ·.text)) (offset offset' : Nat) :
    (joinWords o gap (allFrom offset 0 cs)).map sense =
      (joinWords o' gap' (allFrom offset' 0 ds)).map sense := by
  induction hl : cs.length using Nat.strongRecOn generalizing cs ds fresh o o' gap gap' offset offset' with
  | ind l ih =>
    -- blanks in front only make the gap wider
    obtain ⟨place, hcs⟩ := joinWords_spaces o gap offset cs
    obtain ⟨place', hds⟩ := joinWords_spaces o' gap' offset' ds
    rw [hcs, hds]
    have wide := wide_gap hg cs
    have wide' := wide_gap hg' ds
    have waiting := ho.widen
    have waiting' := ho'.widen
    have front := List.head?_dropWhile_not isSpace cs
    have short := (List.dropWhile_suffix (l := cs) isSpace).length_le
    have words := h.dropWhile (fun _ => id) rfl
    generalize gap ++ cs.takeWhile isSpace = gap at wide waiting ⊢
    generalize gap' ++ ds.takeWhile isSpace = gap' at wide' waiting' ⊢
    generalize cs.dropWhile isSpace = cs at waiting front short words ⊢
    generalize ds.dropWhile isSpace = ds at waiting' words ⊢
    cases words with
    | nil => exact sense_waiting waiting waiting' same
    | blank space => simp [space] at front
    | @char _ _ cs ds c rest =>
      have solid : ¬ isSpace c := by simpa using front
      rw [Bool.false_xor] at rest
      rcases next_respaced solid rest with
        ⟨k, w, cs, ds, fresh, rfl, rfl, hn, hn', later⟩ | ⟨rfl, clean, clean'⟩
      · have shorter : cs.length < l := by
          simp only [List.length_cons, List.length_append] at short
          omega
        have formed := next_formed c (w ++ cs) place
        have formed' := next_formed c (w ++ ds) place'
        rw [hn, List.take_left, List.drop_left] at formed
        rw [hn', List.take_left, List.drop_left] at formed'
        rw [allFrom_cons, allFrom_cons, hn, hn', List.take_left, List.take_left, List.drop_left,
          List.drop_left]
        rcases formed with ⟨rfl, word, stop⟩ | ⟨rfl, blanks⟩ | ⟨notWord, notBlank, -⟩
        · have stop' : ∀ d ∈ ds.head?, ¬ isWordPart d :=
            formed'.elim (·.2.2) fun other => by simp at other
          rw [joinWords_word rfl, joinWords_word rfl]
          refine ih _ shorter later (by simp) (by simp) (waiting_collected waiting stop place)
            (waiting_collected waiting' stop' place') ?_ _ _ rfl
          rw [Option.map_some, Option.map_some]
          refine congrArg some ((separated_collected wide word waiting place).trans ?_)
          rw [same]
          exact (separated_collected wide' word waiting' place').symm
        · exact absurd (blanks c List.mem_cons_self) solid
        · rw [joinWords_other notBlank notWord, joinWords_other notBlank notWord, List.map_append,
            List.map_append, List.map_cons, List.map_cons, sense_waiting waiting waiting' same]
          exact congrArg (_ ++ _ :: ·) (ih _ shorter later (by simp) (by simp) waiting_none waiting_none rfl _ _ rfl)
      · rw [allFrom_cons, allFrom_cons, next_unclosed clean, next_unclosed clean',
          joinWords_other (by simp) (by simp), joinWords_other (by simp) (by simp), List.map_append,
          List.map_append,
          sense_waiting waiting waiting' same, List.drop_length, List.drop_length]
        rfl

end Token

/-- The grammar cannot tell the tokens of the two texts from one another. -/
theorem sense_tokens {cs ds : List Char} (h : Respaced false true cs ds) :
    (tokens cs).map Token.sense = (tokens ds).map Token.sense := by
  rw [tokens, tokens, List.map_append, List.map_append]
  exact congrArg (· ++ _) (Token.sense_joinWords h (by simp) (by simp)
    Token.waiting_none Token.waiting_none rfl 0 0)

end InventoryQuery
