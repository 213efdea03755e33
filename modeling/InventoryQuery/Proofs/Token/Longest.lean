import InventoryQuery.Proofs.Layout.Tokens

/-! The token that a text starts with is the longest one that any of the patterns matches there. Two
patterns never match the same text, so it has one kind only. -/

namespace InventoryQuery

namespace Lexeme

/-- What the patterns match, and the kinds of their tokens. -/
inductive Pattern : Kind → List Char → Prop
  | blank {w : List Char} : w ≠ [] → (∀ c ∈ w, isSpace c) → Pattern .blank w
  | word {w : List Char} : IsWord w → Pattern .word w
  | numeral {w : List Char} : IsNumeral w → Pattern .numeral w
  | string {body : List Char} : '"' ∉ body → Pattern .string ('"' :: (body ++ ['"']))
  | spelling {k : Kind} {w : List Char} : (w, k) ∈ spellings → Pattern k w

/-- Some pattern matches `w` at the start of the text, and no other one matches as much. -/
def LongestMatch (text : List Char) (k : Kind) (w : List Char) : Prop :=
  w <+: text ∧ Pattern k w ∧ ∀ j v, Pattern j v → v <+: text → v.length < w.length ∨ v = w ∧ j = k

/-- Where no pattern matches, one character is left out, but after a quote that is never closed all
of the text. -/
def Unmatched (text : List Char) (k : Kind) (w : List Char) : Prop :=
  (∀ j v, Pattern j v → ¬ v <+: text) ∧ k = .invalid ∧
    w = if text.head? = some '"' then text else text.take 1

theorem starts_spelling : ∀ s ∈ spellings, ∃ c w, s.1 = c :: w ∧ isSpace c = false ∧
    isLetter c = false ∧ isDigit c = false ∧ c ≠ '"' := by
  have table : ∀ s ∈ spellings, s.1 ≠ [] ∧ s.1.head?.all fun c =>
      !isSpace c && !isLetter c && !isDigit c && c != '"' := by decide +kernel
  intro s hs
  obtain ⟨filled, start⟩ := table s hs
  cases hw : s.1 with
  | nil => exact absurd hw filled
  | cons c w =>
    rw [hw] at start
    exact ⟨c, w, rfl, by simpa [and_assoc] using start⟩

theorem spelling_kind : ∀ s ∈ spellings, ∀ r ∈ spellings, s.1 = r.1 → s.2 = r.2 := by decide +kernel

namespace Pattern

variable {j : Kind} {c : Char} {v : List Char}

theorem starts {w : List Char} (h : Pattern j w) : ∃ c v, w = c :: v := by
  cases h with
  | blank filled => exact List.exists_cons_of_ne_nil filled
  | word word => obtain ⟨c, v, rfl, -⟩ := word; exact ⟨c, v, rfl⟩
  | numeral digits => exact List.exists_cons_of_ne_nil digits.1
  | string => exact ⟨_, _, rfl⟩
  | spelling mem => obtain ⟨c, v, same, -⟩ := starts_spelling _ mem; exact ⟨c, v, same⟩

/-- The first character settles which pattern it is, up to the spelling. -/
theorem by_head (h : Pattern j (c :: v)) :
    (isSpace c ∧ j = .blank ∧ ∀ d ∈ v, isSpace d) ∨
    (isLetter c ∧ j = .word ∧ ∀ d ∈ v, isWordPart d) ∨
    (isDigit c ∧ j = .numeral ∧ ∀ d ∈ v, isDigit d) ∨
    (c = '"' ∧ j = .string ∧ ∃ body, '"' ∉ body ∧ v = body ++ ['"']) ∨
    ((isSpace c = false ∧ isLetter c = false ∧ isDigit c = false ∧ c ≠ '"') ∧ (c :: v, j) ∈ spellings) := by
  generalize hw : c :: v = w at h
  cases h with
  | blank _ spaces =>
    subst hw
    obtain ⟨first, others⟩ := List.forall_mem_cons.1 spaces
    exact .inl ⟨first, rfl, others⟩
  | word word =>
    obtain ⟨d, ds, rfl, letter, parts⟩ := word
    cases hw
    exact .inr (.inl ⟨letter, rfl, parts⟩)
  | numeral digits =>
    subst hw
    obtain ⟨first, others⟩ := List.forall_mem_cons.1 digits.2
    exact .inr (.inr (.inl ⟨first, rfl, others⟩))
  | string clean =>
    cases hw
    exact .inr (.inr (.inr (.inl ⟨rfl, rfl, _, clean, rfl⟩)))
  | spelling mem =>
    subst hw
    obtain ⟨d, ds, same, start⟩ := starts_spelling _ mem
    cases same
    exact .inr (.inr (.inr (.inr ⟨start, mem⟩)))

theorem of_space (hc : isSpace c) (h : Pattern j (c :: v)) : j = .blank ∧ ∀ d ∈ v, isSpace d := by
  rcases h.by_head with h | ⟨letter, -⟩ | ⟨digit, -⟩ | ⟨rfl, -⟩ | ⟨⟨space, -⟩, -⟩
  · exact h.2
  · exact absurd hc (not_isSpace_of_isLetter letter)
  · exact absurd hc (not_isSpace_of_isDigit digit)
  · cases hc
  · rw [space] at hc; cases hc

theorem of_letter (hc : isLetter c) (h : Pattern j (c :: v)) : j = .word ∧ ∀ d ∈ v, isWordPart d := by
  rcases h.by_head with ⟨space, -⟩ | h | ⟨digit, -⟩ | ⟨rfl, -⟩ | ⟨⟨-, letter, -⟩, -⟩
  · exact absurd space (not_isSpace_of_isLetter hc)
  · exact h.2
  · exact absurd hc (not_isLetter_of_isDigit digit)
  · cases hc
  · rw [letter] at hc; cases hc

theorem of_digit (hc : isDigit c) (h : Pattern j (c :: v)) : j = .numeral ∧ ∀ d ∈ v, isDigit d := by
  rcases h.by_head with ⟨space, -⟩ | ⟨letter, -⟩ | h | ⟨rfl, -⟩ | ⟨⟨-, -, digit, -⟩, -⟩
  · exact absurd space (not_isSpace_of_isDigit hc)
  · exact absurd letter (not_isLetter_of_isDigit hc)
  · exact h.2
  · cases hc
  · rw [digit] at hc; cases hc

theorem of_quote (h : Pattern j ('"' :: v)) : j = .string ∧ ∃ body, '"' ∉ body ∧ v = body ++ ['"'] := by
  rcases h.by_head with ⟨space, -⟩ | ⟨letter, -⟩ | ⟨digit, -⟩ | h | ⟨⟨-, -, -, quote⟩, -⟩
  · cases space
  · cases letter
  · cases digit
  · exact h.2
  · exact absurd rfl quote

theorem of_sign (hs : ¬ isSpace c) (hl : ¬ isLetter c) (hd : ¬ isDigit c) (hq : c ≠ '"')
    (h : Pattern j (c :: v)) : (c :: v, j) ∈ spellings := by
  rcases h.by_head with ⟨space, -⟩ | ⟨letter, -⟩ | ⟨digit, -⟩ | ⟨quote, -⟩ | h
  · exact absurd space hs
  · exact absurd letter hl
  · exact absurd digit hd
  · exact absurd quote hq
  · exact h.2

end Pattern

/-- A pattern that is known by its first character goes on as long as `p` allows. -/
theorem longest_of_run {k : Kind} {p : Char → Bool} {c : Char} {cs : List Char}
    (self : Pattern k (c :: cs.takeWhile p))
    (only : ∀ j v, Pattern j (c :: v) → j = k ∧ ∀ d ∈ v, p d) :
    LongestMatch (c :: cs) k (c :: cs.take (cs.takeWhile p).length) := by
  rw [← List.prefix_iff_eq_take.1 (List.takeWhile_prefix p)]
  refine ⟨List.cons_prefix_cons.2 ⟨rfl, List.takeWhile_prefix p⟩, self, fun j w hw start => ?_⟩
  obtain ⟨d, v, rfl⟩ := hw.starts
  obtain ⟨rfl, follows⟩ := List.cons_prefix_cons.1 start
  obtain ⟨rfl, run⟩ := only j v hw
  have within : v <+: cs.takeWhile p := by
    obtain ⟨rest, rfl⟩ := follows
    rw [List.takeWhile_append_of_pos run]
    exact List.prefix_append v _
  rcases Nat.lt_or_ge v.length (cs.takeWhile p).length with less | more
  · exact .inl (by simpa using less)
  · exact .inr ⟨by rw [within.eq_of_length_le more], rfl⟩

section spelling

variable {c : Char} {cs : List Char} {s : List Char × Kind} {best : Option (Kind × Nat)}

theorem longerSpelling_takes (h : s.1 <+: cs) : ∃ b ∈ longerSpelling cs best s, s.1.length ≤ b.2 := by
  rw [longerSpelling, List.isPrefixOf_iff_prefix.2 h]
  cases best with
  | none => simp
  | some b => by_cases less : b.2 < s.1.length <;> simp [less]; omega

theorem longerSpelling_keeps {b : Kind × Nat} (h : b ∈ best) :
    ∃ b' ∈ longerSpelling cs best s, b.2 ≤ b'.2 := by
  cases h
  rw [longerSpelling]
  split
  · rename_i taken
    have less : b.2 < s.1.length := by simpa using (Bool.and_eq_true_iff.1 taken).2
    exact ⟨_, rfl, less.le⟩
  · exact ⟨b, rfl, le_refl _⟩

theorem foldl_longerSpelling_keeps (table : List (List Char × Kind)) {b : Kind × Nat} (h : b ∈ best) :
    ∃ b' ∈ table.foldl (longerSpelling cs) best, b.2 ≤ b'.2 := by
  induction table generalizing best b with
  | nil => exact ⟨b, h, le_refl _⟩
  | cons s table ih =>
    obtain ⟨b', mem, le⟩ : ∃ b' ∈ longerSpelling cs best s, b.2 ≤ b'.2 := longerSpelling_keeps h
    obtain ⟨b'', mem', le'⟩ := ih mem
    exact ⟨b'', mem', le.trans le'⟩

/-- No spelling at the start of the text is longer than the one that is taken. -/
theorem longestSpelling?_max (hs : s ∈ spellings) (h : s.1 <+: cs) :
    ∃ b ∈ longestSpelling? cs, s.1.length ≤ b.2 := by
  unfold longestSpelling?
  generalize (none : Option (Kind × Nat)) = best
  generalize spellings = table at hs
  induction table generalizing best with
  | nil => cases hs
  | cons r table ih =>
    rcases List.mem_cons.1 hs with rfl | later
    · obtain ⟨b, mem, le⟩ : ∃ b ∈ longerSpelling cs best s, s.1.length ≤ b.2 := longerSpelling_takes h
      obtain ⟨b', mem', le'⟩ := foldl_longerSpelling_keeps table mem
      exact ⟨b', mem', le.trans le'⟩
    · exact ih _ later

theorem longest_of_spelling {k : Kind} {n : Nat} (hs : ¬ isSpace c) (hl : ¬ isLetter c)
    (hd : ¬ isDigit c) (hq : c ≠ '"') (h : longestSpelling? (c :: cs) = some (k, n)) :
    LongestMatch (c :: cs) k (c :: cs.take (n - 1)) := by
  obtain ⟨⟨spelling, k⟩, mem, rfl, rfl, start⟩ := longestSpelling?_mem h
  obtain ⟨d, w, rfl, -⟩ := starts_spelling _ mem
  obtain ⟨rfl, follows⟩ := List.cons_prefix_cons.1 start
  rw [List.length_cons, Nat.add_sub_cancel, ← List.prefix_iff_eq_take.1 follows]
  refine ⟨start, .spelling mem, fun j v hv begins => ?_⟩
  obtain ⟨e, v, rfl⟩ := hv.starts
  obtain ⟨rfl, -⟩ := List.cons_prefix_cons.1 begins
  have other := hv.of_sign hs hl hd hq
  obtain ⟨b, found, le⟩ := longestSpelling?_max other begins
  cases h.symm.trans found
  rcases Nat.lt_or_eq_of_le le with less | equal
  · exact .inl less
  · have same : e :: v = e :: w :=
      (List.prefix_of_prefix_length_le begins start le).eq_of_length equal
    exact .inr ⟨same, spelling_kind _ other _ mem same⟩

theorem unmatched_of_sign (hs : ¬ isSpace c) (hl : ¬ isLetter c) (hd : ¬ isDigit c) (hq : c ≠ '"')
    (h : longestSpelling? (c :: cs) = none) : Unmatched (c :: cs) .invalid [c] := by
  refine ⟨fun j v hv begins => ?_, rfl, by simp [hq]⟩
  obtain ⟨e, v, rfl⟩ := hv.starts
  obtain ⟨rfl, -⟩ := List.cons_prefix_cons.1 begins
  obtain ⟨b, found, -⟩ := longestSpelling?_max (hv.of_sign hs hl hd hq) begins
  rw [h] at found
  cases found

end spelling

/-- The first quote behind the one that opens a string closes it. -/
theorem string_closed {body v rest : List Char} (hb : '"' ∉ body) (hv : '"' ∉ v)
    (h : v ++ ['"'] <+: body ++ '"' :: rest) : v = body := by
  obtain ⟨more, same⟩ := h
  rw [List.append_assoc] at same
  have inside {w : List Char} (hw : '"' ∉ w) : ∀ d ∈ w, (· ≠ '"' : Char → Bool) d := fun d hd => by
    simpa using ne_of_mem_of_not_mem hd hw
  exact (run_append_inj (inside hv) (inside hb) (by simp) (by simp) same).1

theorem next_longest (c : Char) (cs : List Char) :
    LongestMatch (c :: cs) (next c cs).1 (c :: cs.take (next c cs).2) ∨
      Unmatched (c :: cs) (next c cs).1 (c :: cs.take (next c cs).2) := by
  by_cases space : isSpace c
  · rw [next, if_pos space]
    refine .inl (longest_of_run (.blank (by simp) ?_) fun j v hv => hv.of_space space)
    exact List.forall_mem_cons.2 ⟨space, fun d => List.mem_takeWhile_imp⟩
  by_cases letter : isLetter c
  · rw [next, if_neg space, if_pos letter]
    exact .inl (longest_of_run (.word ⟨c, _, rfl, letter, fun d => List.mem_takeWhile_imp⟩)
      fun j v hv => hv.of_letter letter)
  by_cases digit : isDigit c
  · rw [next, if_neg space, if_neg letter, if_pos digit]
    refine .inl (longest_of_run (.numeral ⟨by simp, ?_⟩) fun j v hv => hv.of_digit digit)
    exact List.forall_mem_cons.2 ⟨digit, fun d => List.mem_takeWhile_imp⟩
  by_cases quote : c = '"'
  · subst quote
    by_cases closed : '"' ∈ cs
    · obtain ⟨body, rest, rfl, clean⟩ := List.eq_append_cons_of_mem closed
      have whole : body ++ '"' :: rest = (body ++ ['"']) ++ rest := by simp
      have length : (body ++ ['"']).length = body.length + 1 := by simp
      rw [next_string clean, ← length, whole, List.take_left, ← whole]
      refine .inl ⟨⟨rest, by simp⟩, .string clean, fun j v hv begins => ?_⟩
      obtain ⟨e, v, rfl⟩ := hv.starts
      obtain ⟨rfl, follows⟩ := List.cons_prefix_cons.1 begins
      obtain ⟨rfl, other, clean', rfl⟩ := hv.of_quote
      exact .inr ⟨by rw [string_closed clean clean' follows], rfl⟩
    · rw [next_unclosed closed, List.take_length]
      refine .inr ⟨fun j v hv begins => ?_, rfl, rfl⟩
      obtain ⟨e, v, rfl⟩ := hv.starts
      obtain ⟨rfl, follows⟩ := List.cons_prefix_cons.1 begins
      obtain ⟨-, body, -, rfl⟩ := hv.of_quote
      exact closed (follows.subset (by simp))
  rw [next, if_neg space, if_neg letter, if_neg digit, if_neg quote]
  cases found : longestSpelling? (c :: cs) with
  | none => exact .inr (unmatched_of_sign space letter digit quote found)
  | some b => exact .inl (longest_of_spelling space letter digit quote found)

/-- What is a longest match is the next token. -/
theorem LongestMatch.next_eq {k : Kind} {c : Char} {w rest : List Char}
    (h : LongestMatch (c :: (w ++ rest)) k (c :: w)) : next c (w ++ rest) = (k, w.length) := by
  obtain ⟨start, matched, most⟩ := h
  have fits := next_le c (w ++ rest)
  rcases next_longest c (w ++ rest) with ⟨start', matched', most'⟩ | ⟨unmatched, -⟩
  · have same : c :: (w ++ rest).take (next c (w ++ rest)).2 = c :: w ∧ (next c (w ++ rest)).1 = k := by
      rcases most _ _ matched' start' with shorter | same
      · rcases most' _ _ matched start with longer | ⟨text, kind⟩
        · omega
        · exact ⟨text.symm, kind.symm⟩
      · exact same
    have length := congrArg List.length same.1
    simp only [List.length_cons, List.length_take, Nat.min_eq_left fits] at length
    exact Prod.ext same.2 (Nat.succ.inj length)
  · exact absurd start (unmatched k _ matched)

end Lexeme

end InventoryQuery
