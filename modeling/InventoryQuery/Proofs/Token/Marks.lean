import InventoryQuery.Proofs.Keyword.Marks
import InventoryQuery.Proofs.Token.Joining

/-! Where every token is finished, the tokens of the kind of a mark are the marks outside double
quotes. -/

namespace InventoryQuery

theorem kind_of_mark : ∀ m ∈ marks,
    m.2 ≠ .blank ∧ m.2 ≠ .word ∧ m.2 ≠ .numeral ∧ m.2 ≠ .string ∧ m.2 ≠ .phrase ∧ m.2 ≠ .invalid := by
  decide

theorem mark_ne_quote : ∀ m ∈ marks, m.1 ≠ '"' := by decide

namespace Lexeme

/-- A spelling is a mark or has none in it. -/
theorem count_spelling : ∀ m ∈ marks, ∀ s ∈ spellings,
    s.1.count m.1 = if s.2 = m.2 then 1 else 0 := by decide +kernel

theorem spelling_of_mark : ∀ m ∈ marks, ∀ s ∈ spellings, s.2 = m.2 → s.1 = [m.1] := by
  decide +kernel

/-- A token is a mark, or the mark is in it between double quotes only. -/
theorem count_next {m : Char × Kind} (hm : m ∈ marks) {c : Char} {cs : List Char}
    (hv : (next c cs).1 ≠ .invalid) :
    (outside false (c :: cs.take (next c cs).2)).count m.1 =
      if (next c cs).1 = m.2 then 1 else 0 := by
  obtain ⟨blank, word, numeral, string, -, -⟩ := kind_of_mark m hm
  have classes : isSpace m.1 = false ∧ isLetter m.1 = false ∧ isDigit m.1 = false ∧
      isWordPart m.1 = false := by
    revert m; decide
  -- a run of the class of its first character
  have run {p q : Char → Bool} (hq : q c) (hqm : q m.1 = false) (hp : p m.1 = false) :
      (outside false (c :: cs.take (cs.takeWhile p).length)).count m.1 = 0 :=
    count_outside_of_not_mem (not_mem_run hp fun same => by rw [same, hq] at hqm; cases hqm) _
  unfold next at hv ⊢
  split
  · rename_i hs
    rw [if_neg (Ne.symm blank), run hs classes.1 classes.1]
  split
  · rename_i hs
    rw [if_neg (Ne.symm word), run hs classes.2.1 classes.2.2.2]
  split
  · rename_i hs
    rw [if_neg (Ne.symm numeral), run hs classes.2.2.1 classes.2.2.1]
  rename_i space letter digit
  rw [if_neg space, if_neg letter, if_neg digit] at hv
  split
  · rename_i quote
    rw [if_pos quote] at hv
    dsimp only at hv ⊢
    split at hv
    · rename_i hlt
      obtain ⟨body, clean, taken⟩ := take_string hlt
      rw [if_pos hlt, if_neg (Ne.symm string), taken, quote, outside_string clean]
      rfl
    · exact absurd rfl hv
  · rename_i quote
    rw [if_neg quote] at hv
    split
    · rename_i k n hs
      obtain ⟨⟨spelling, k⟩, hspell, rfl, rfl, hp⟩ := longestSpelling?_mem hs
      have clean := quote_not_mem_spelling _ hspell
      have once := count_spelling m hm _ hspell
      cases spelling with
      | nil =>
        have : ∀ s ∈ spellings, s.1 ≠ [] := by decide +kernel
        exact absurd rfl (this _ hspell)
      | cons d ds =>
        obtain ⟨rfl, ht⟩ := List.cons_prefix_cons.1 hp
        rw [show (d :: ds).length - 1 = ds.length from rfl, ← List.prefix_iff_eq_take.1 ht,
          outside_of_not_mem clean]
        exact once
    · rename_i hs
      rw [hs] at hv
      exact absurd rfl hv

/-- A token of the kind of a mark is the mark. -/
theorem next_eq_mark {m : Char × Kind} (hm : m ∈ marks) {c : Char} {cs : List Char}
    (hk : (next c cs).1 = m.2) : c = m.1 ∧ (next c cs).2 = 0 := by
  obtain ⟨blank, word, numeral, string, -, invalid⟩ := kind_of_mark m hm
  unfold next at hk ⊢
  split at hk
  · exact absurd hk.symm blank
  split at hk
  · exact absurd hk.symm word
  split at hk
  · exact absurd hk.symm numeral
  split at hk
  · dsimp only at hk
    split at hk
    · exact absurd hk.symm string
    · exact absurd hk.symm invalid
  rename_i space letter digit quote
  rw [if_neg space, if_neg letter, if_neg digit, if_neg quote]
  split at hk
  · rename_i k n hs
    obtain ⟨⟨spelling, k⟩, mem, rfl, rfl, hp⟩ := longestSpelling?_mem hs
    have only := spelling_of_mark m hm _ mem hk
    dsimp only at only
    subst only
    exact ⟨(List.cons_prefix_cons.1 hp).1.symm, rfl⟩
  · exact absurd hk.symm invalid

/-- The tokens of the kind of a mark start where the mark stands outside double quotes. -/
theorem starts_allFrom {m : Char × Kind} (hm : m ∈ marks) {text : List Char} {offset : Nat}
    (valid : ∀ t ∈ allFrom offset 0 text, t.kind ≠ .invalid) :
    ((allFrom offset 0 text).filter (·.kind = m.2)).map (·.start) =
      places m.1 false offset text := by
  induction text using text_induction generalizing offset with
  | nil => rfl
  | cons c cs ih =>
    rw [allFrom_cons] at valid ⊢
    have first := valid _ List.mem_cons_self
    have later := ih fun t ht => valid t (List.mem_cons_of_mem _ ht)
    have split : c :: cs = (c :: cs.take (next c cs).2) ++ cs.drop (next c cs).2 := by
      rw [List.cons_append, List.take_append_drop]
    conv_rhs => rw [split, places_append, quoteOpen_next first, ← later]
    have quote : m.1 ≠ '"' := mark_ne_quote m hm
    by_cases hk : (next c cs).1 = m.2
    · obtain ⟨rfl, hn⟩ := next_eq_mark hm hk
      rw [List.filter_cons_of_pos (by simpa using hk), hn]
      simp [places, quote]
    · rw [List.filter_cons_of_neg (by simpa using hk),
        places_eq_nil quote ((count_next hm first).trans (if_neg hk)), List.nil_append]

end Lexeme

theorem starts_tokens {m : Char × Kind} (hm : m ∈ marks) {text : List Char}
    (valid : ∀ t ∈ lexemes text, t.kind ≠ .invalid) :
    ((tokens text).dropLast.filter (·.kind = m.2)).map (·.start) = places m.1 false 0 text := by
  obtain ⟨blank, word, -, -, phrase, -⟩ := kind_of_mark m hm
  rw [(joins_phrases text).filter_eq (fun t h => by simp [h, Ne.symm, phrase])]
  · exact Lexeme.starts_allFrom hm valid
  · rintro t - (h | h) <;> simp [h, Ne.symm, blank, word]

theorem countP_tokens {m : Char × Kind} (hm : m ∈ marks) {text : List Char}
    (valid : ∀ t ∈ lexemes text, t.kind ≠ .invalid) :
    (tokens text).dropLast.countP (·.kind = m.2) = (outside false text).count m.1 := by
  rw [← length_places (mark_ne_quote m hm) false 0, ← starts_tokens hm valid, List.length_map,
    List.countP_eq_length_filter]

end InventoryQuery
