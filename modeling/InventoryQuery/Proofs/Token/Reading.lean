import InventoryQuery.Proofs.Token.Joining

/-! Reading a text from the front. What stands first is a token by itself if the next character does
not belong to it, and the rest is read as if nothing had been before. A name is one token, as long as
no word follows it. -/

namespace InventoryQuery

open Lexeme

def IsWord (w : List Char) : Prop :=
  ∃ c cs, w = c :: cs ∧ isLetter c ∧ ∀ d ∈ cs, isWordPart d

inductive IsName : List Char → Prop
  | word {w : List Char} : IsWord w → IsName w
  | join {w n : List Char} : IsWord w → IsName n → IsName (w ++ ' ' :: n)

theorem IsName.starts {n : List Char} (h : IsName n) : ∃ c cs, n = c :: cs ∧ isLetter c := by
  cases h with
  | word hw => obtain ⟨c, cs, rfl, hc, -⟩ := hw; exact ⟨c, cs, rfl, hc⟩
  | join hw _ => obtain ⟨c, cs, rfl, hc, -⟩ := hw; exact ⟨c, _, rfl, hc⟩

def IsNumeral (ds : List Char) : Prop := ds ≠ [] ∧ ∀ d ∈ ds, isDigit d

namespace Lexeme

section next

variable {c : Char} {cs rest : List Char}

theorem not_isWordPart_of_isSpace (h : isSpace c) : ¬ isWordPart c := by
  simp only [isSpace, decide_eq_true_eq, Bool.or_eq_true] at h
  rcases h with (((rfl | rfl) | rfl) | rfl) | rfl <;> decide

theorem not_isSpace_of_isLetter (h : isLetter c) : ¬ isSpace c := fun space =>
  not_isWordPart_of_isSpace space (by simp [isWordPart, h])

theorem not_isSpace_of_isDigit (h : isDigit c) : ¬ isSpace c := fun space =>
  not_isWordPart_of_isSpace space (by simp [isWordPart, h])

theorem not_isLetter_of_isDigit (h : isDigit c) : ¬ isLetter c := by
  simp only [isDigit, isLetter, Bool.and_eq_true, Bool.or_eq_true, decide_eq_true_eq, Char.le_def,
    UInt32.le_iff_toNat_le] at h ⊢
  have small : ('a' : Char).val.toNat = 97 ∧ ('A' : Char).val.toNat = 65 ∧
    ('9' : Char).val.toNat = 57 := ⟨rfl, rfl, rfl⟩
  omega

theorem next_word (hc : isLetter c) (hs : ∀ d ∈ cs, isWordPart d)
    (hr : ∀ d ∈ rest.head?, ¬ isWordPart d) : next c (cs ++ rest) = (.word, cs.length) := by
  rw [next, if_neg (not_isSpace_of_isLetter hc), if_pos hc, takeWhile_run hs hr]

theorem next_numeral (hc : isDigit c) (hs : ∀ d ∈ cs, isDigit d)
    (hr : ∀ d ∈ rest.head?, ¬ isDigit d) : next c (cs ++ rest) = (.numeral, cs.length) := by
  rw [next, if_neg (not_isSpace_of_isDigit hc), if_neg (not_isLetter_of_isDigit hc), if_pos hc,
    takeWhile_run hs hr]

theorem next_string {body : List Char} (hb : '"' ∉ body) (rest : List Char) :
    next '"' (body ++ '"' :: rest) = (.string, body.length + 1) := by
  have run : (body ++ '"' :: rest).takeWhile (· ≠ '"') = body :=
    takeWhile_run (fun d hd => by simpa using ne_of_mem_of_not_mem hd hb) (by simp)
  rw [next, if_neg (by decide), if_neg (by decide), if_neg (by decide), if_pos rfl]
  dsimp only
  rw [run, if_pos (by simp)]

/-- A spelling is taken where none goes on with what follows. -/
theorem next_spelling {k : Kind}
    (hc : isSpace c = false ∧ isLetter c = false ∧ isDigit c = false ∧ c ≠ '"')
    (found : longestSpelling? (c :: cs) = some (k, cs.length + 1))
    (stop : ∀ s ∈ spellings, s.1 <+: c :: (cs ++ rest) → s.1 <+: c :: cs) :
    next c (cs ++ rest) = (k, cs.length) := by
  have same : longestSpelling? (c :: (cs ++ rest)) = longestSpelling? (c :: cs) := by
    refine List.foldl_ext _ _ none fun best s hs => ?_
    have prefixes : s.1.isPrefixOf (c :: (cs ++ rest)) = s.1.isPrefixOf (c :: cs) := by
      rw [Bool.eq_iff_iff, List.isPrefixOf_iff_prefix, List.isPrefixOf_iff_prefix]
      exact ⟨stop s hs, fun h => h.trans (List.prefix_append (c :: cs) rest)⟩
    rw [longerSpelling, longerSpelling, prefixes]
  obtain ⟨space, letter, digit, quote⟩ := hc
  rw [next, if_neg (by simp [space]), if_neg (by simp [letter]), if_neg (by simp [digit]),
    if_neg quote, same, found]
  rfl

/-- What comes next does not start with a character that a longer spelling would need. -/
theorem stop_of_head {w : List Char} (needed : List Char) (hr : ∀ d ∈ needed, rest.head? ≠ some d)
    (only : ∀ s ∈ spellings, w <+: s.1 → s.1 = w ∨ needed.any fun d => (w ++ [d]).isPrefixOf s.1) :
    ∀ s ∈ spellings, s.1 <+: w ++ rest → s.1 <+: w := by
  intro s hs hp
  by_cases le : s.1.length ≤ w.length
  · exact List.prefix_of_prefix_length_le hp (List.prefix_append w rest) le
  · have longer : w <+: s.1 :=
      List.prefix_of_prefix_length_le (List.prefix_append w rest) hp (Nat.le_of_not_le le)
    rcases only s hs longer with same | more
    · exact same ▸ List.prefix_refl w
    · obtain ⟨d, hd, more⟩ := List.any_eq_true.1 more
      obtain ⟨tail, rfl⟩ :=
        (List.prefix_append_right_inj w).1 ((List.isPrefixOf_iff_prefix.1 more).trans hp)
      exact absurd rfl (hr d hd)

/-- What starts neither a blank nor a word is neither. -/
theorem next_ne_word (hs : ¬ isSpace c) (hl : ¬ isLetter c) (cs : List Char) :
    (next c cs).1 ≠ .blank ∧ (next c cs).1 ≠ .word := by
  have table : ∀ s ∈ spellings, s.2 ≠ .blank ∧ s.2 ≠ .word := by decide
  unfold next
  rw [if_neg hs, if_neg hl]
  split
  · exact ⟨nofun, nofun⟩
  split
  · dsimp only
    split <;> exact ⟨nofun, nofun⟩
  split
  · rename_i h
    obtain ⟨s, hm, rfl, -⟩ := longestSpelling?_mem h
    exact table s hm
  · exact ⟨nofun, nofun⟩

end next

end Lexeme

namespace Token

/-- No word goes on or follows, and no arrow is completed. -/
def Stops (rest : List Char) : Prop :=
  (∀ c ∈ rest.head?, ¬ isWordPart c ∧ c ≠ '>') ∧
    ∀ c ∈ (rest.dropWhile isSpace).head?, ¬ isLetter c

theorem Stops.nil : Stops [] := ⟨nofun, nofun⟩

theorem Stops.cons {c : Char} {q : List Char} (hw : ¬ isWordPart c) (hs : ¬ isSpace c)
    (ha : c ≠ '>') : Stops (c :: q) := by
  refine ⟨by rintro _ ⟨⟩; exact ⟨hw, ha⟩, ?_⟩
  rw [List.dropWhile_cons_of_neg hs]
  rintro _ ⟨⟩ letter
  exact hw (by rw [isWordPart, letter]; rfl)

theorem Stops.space {c : Char} {q : List Char} (hs : ¬ isSpace c) (hl : ¬ isLetter c) :
    Stops (' ' :: c :: q) := by
  refine ⟨by rintro _ ⟨⟩; decide, ?_⟩
  rw [List.dropWhile_cons_of_pos (by decide), List.dropWhile_cons_of_neg hs]
  rintro _ ⟨⟩
  exact hl

theorem contents_nil : contents [] = [] := rfl

theorem contents_cons {k : Kind} {c : Char} (cs : List Char) {rest : List Char}
    (hn : next c (cs ++ rest) = (k, cs.length)) (hb : k ≠ .blank) (hw : k ≠ .word) :
    contents (c :: (cs ++ rest)) = (k, c :: cs) :: contents rest := by
  rw [contents, lexemes, allFrom_cons, hn, List.take_left, List.drop_left, joinWords_other hb hw,
    Option.toList_none, List.nil_append, reading_cons,
    reading_joinWords (reading_allFrom _ 0 rest) rfl []]
  rfl

/-- Where no word follows, a phrase is finished. -/
theorem reading_joinWords_stop {rest : List Char} (h : Stops rest) (p : Token) (gap : List Char)
    (offset : Nat) :
    reading (joinWords (some p) gap (allFrom offset 0 rest)) = (p.kind, p.text) :: contents rest := by
  have split := List.takeWhile_append_dropWhile (p := isSpace) (l := rest)
  have blanks : ∀ d ∈ rest.takeWhile isSpace, isSpace d := fun d => List.mem_takeWhile_imp
  have stop : ∀ d ∈ (rest.dropWhile isSpace).head?, ¬ isSpace d := by
    intro d hd
    have := List.head?_dropWhile_not isSpace rest
    rw [Option.mem_def.1 hd] at this
    simpa using this
  have letter := h.2
  -- the blanks in front are of no account, and then comes the end or another token
  have later (gap : List Char) (offset : Nat) :
      reading (joinWords (some p) gap (allFrom offset 0 (rest.dropWhile isSpace))) =
        (p.kind, p.text) :: contents (rest.dropWhile isSpace) := by
    cases hd : rest.dropWhile isSpace with
    | nil => rfl
    | cons c cs =>
      rw [hd] at stop letter
      obtain ⟨blank, word⟩ := next_ne_word (stop c rfl) (letter c rfl) cs
      exact reading_joinWords_start blank word (some p) gap offset
  have skipped := contents_of_blanks blanks stop 0
  rw [split] at skipped
  change contents rest = _ at skipped
  rw [skipped]
  by_cases tight : rest.takeWhile isSpace = []
  · rw [tight, List.nil_append] at split
    rw [split] at later ⊢
    exact later gap offset
  · conv_lhs => rw [← split]
    rw [allFrom_blanks tight blanks stop, joinWords_blank rfl]
    exact later _ _

theorem reading_joinWords_name {n rest : List Char} (hn : IsName n) (h : Stops rest)
    (open? : Option Token) (gap : List Char) (offset : Nat) :
    reading (joinWords open? gap (allFrom offset 0 (n ++ rest))) =
      (open?.elim (.phrase, n) fun p => (p.kind, p.text ++ gap ++ n)) :: contents rest := by
  have first {w : List Char} (hw : IsWord w) (rest : List Char) (hr : ∀ d ∈ rest.head?, ¬ isWordPart d)
      (open? : Option Token) (gap : List Char) (offset : Nat) :
      ∃ p after, joinWords open? gap (allFrom offset 0 (w ++ rest)) =
          joinWords (some p) [] (allFrom after 0 rest) ∧
        (p.kind, p.text) = open?.elim (.phrase, w) fun p => (p.kind, p.text ++ gap ++ w) := by
    obtain ⟨c, cs, rfl, hc, hs⟩ := hw
    rw [List.cons_append, allFrom_cons, next_word hc hs hr, List.take_left, List.drop_left,
      joinWords_word rfl]
    exact ⟨_, _, rfl, by cases open? <;> rfl⟩
  induction hn generalizing open? gap offset with
  | word hw =>
    obtain ⟨p, after, joined, text⟩ := first hw rest (fun d hd => (h.1 d hd).1) open? gap offset
    rw [joined, reading_joinWords_stop h, text]
  | @join w n hw hn ih =>
    obtain ⟨p, after, joined, text⟩ :=
      first hw (' ' :: (n ++ rest)) (by simp; decide) open? gap offset
    have letter : ∀ d ∈ (n ++ rest).head?, ¬ isSpace d := by
      obtain ⟨c, cs, rfl, hc⟩ := hn.starts
      rintro _ ⟨⟩
      exact not_isSpace_of_isLetter hc
    rw [List.append_assoc, List.cons_append, joined,
      show ' ' :: (n ++ rest) = [' '] ++ (n ++ rest) from rfl,
      allFrom_blanks (by simp) (by simp; decide) letter, joinWords_blank rfl, ih]
    obtain ⟨kind, text⟩ := Prod.ext_iff.1 text
    dsimp only at kind text
    cases open? <;> simp_all

/-- A name is one token. -/
theorem contents_name {n rest : List Char} (hn : IsName n) (h : Stops rest) :
    contents (n ++ rest) = (.phrase, n) :: contents rest :=
  reading_joinWords_name hn h none [] 0

theorem contents_numeral {ds rest : List Char} (hd : IsNumeral ds)
    (h : ∀ d ∈ rest.head?, ¬ isWordPart d) :
    contents (ds ++ rest) = (.numeral, ds) :: contents rest := by
  obtain ⟨hne, digits⟩ := hd
  cases ds with
  | nil => exact absurd rfl hne
  | cons c cs =>
    obtain ⟨hc, hs⟩ := List.forall_mem_cons.1 digits
    refine contents_cons cs (next_numeral hc hs fun d hd digit => h d hd ?_) nofun nofun
    rw [isWordPart, digit, Bool.or_true, Bool.true_or]

theorem contents_string {body : List Char} (hb : '"' ∉ body) (rest : List Char) :
    contents ('"' :: (body ++ '"' :: rest)) = (.string, '"' :: (body ++ ['"'])) :: contents rest := by
  have found := next_string hb rest
  rw [show body ++ '"' :: rest = (body ++ ['"']) ++ rest by simp] at found ⊢
  exact contents_cons _ (by rw [found]; simp) nofun nofun

end Token

end InventoryQuery
