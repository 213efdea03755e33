import InventoryQuery.Proofs.Keyword.Parens
import InventoryQuery.Proofs.Token.Reading

/-! Reading a text over a parenthesis, which is always a token by itself, and reading the part of a
text in front of a blank. -/

namespace InventoryQuery

open Lexeme

namespace Token

theorem stop_of_isParen {c : Char} (hc : IsParen c) : Stop c := by
  rcases hc with rfl | rfl <;> exact ⟨rfl, by decide +kernel⟩

def parenKind (c : Char) : Kind := if c = '(' then .leftParen else .rightParen

theorem next_paren {c : Char} (hc : IsParen c) (cs : List Char) : next c cs = (parenKind c, 0) := by
  have facts : isSpace c = false ∧ isLetter c = false ∧ isDigit c = false ∧ c ≠ '"' ∧
      longestSpelling? [c] = some (parenKind c, 1) ∧
      ∀ s ∈ spellings, [c] <+: s.1 → s.1 = [c] := by
    rcases hc with rfl | rfl <;> decide +kernel
  obtain ⟨space, letter, digit, quote, found, only⟩ := facts
  have alone : next c ([] ++ cs) = (parenKind c, 0) :=
    next_spelling ⟨space, letter, digit, quote⟩ found
      (stop_of_head [] nofun fun s hs longer => .inl (only s hs longer))
  exact alone

theorem contents_append_paren {c : Char} (hc : IsParen c) {text : List Char}
    (valid : ∀ t ∈ lexemes text, t.kind ≠ .invalid) (q : List Char) :
    contents (text ++ c :: q) = contents text ++ (parenKind c, [c]) :: contents q := by
  have space : ¬ isSpace c := by rcases hc with rfl | rfl <;> decide
  have kind : parenKind c ≠ .blank ∧ parenKind c ≠ .word := by rcases hc with rfl | rfl <;> decide
  have found := next_paren hc q
  have closes : Closes (c :: q) :=
    closes_token (by rw [found]; exact kind.1) (by rw [found]; exact kind.2) space
  have apart := reading_joinWords_append closes
    (fun _ _ _ valid => next_append_stop (stop_of_isParen hc) (fun blank => absurd blank space) valid q)
    text 0 valid none []
  exact apart.trans (congrArg _ (contents_cons [] found kind.1 kind.2))

end Token

namespace Lexeme

/-- What no token can start with stays that, as long as no quote is open. -/
theorem next_invalid_append {c : Char} {cs : List Char} (h : (next c cs).1 = .invalid)
    (closed : quoteOpen false (c :: cs) = false) (q : List Char) :
    (next c (cs ++ ' ' :: q)).1 = .invalid := by
  by_cases quote : c = '"'
  · subst quote
    by_cases mem : '"' ∈ cs
    · obtain ⟨body, rest, rfl, clean⟩ := List.eq_append_cons_of_mem mem
      rw [next_string clean] at h
      cases h
    · have opened : quoteOpen false ('"' :: cs) = quoteOpen true cs := rfl
      rw [opened, quoteOpen_of_not_mem mem] at closed
      cases closed
  · unfold next at h ⊢
    rw [if_neg quote] at h ⊢
    rw [longestSpelling?_append_stop stop_blank]
    split at h
    · cases h
    split at h
    · cases h
    split at h
    · cases h
    · rename_i space letter digit
      rwa [if_neg space, if_neg letter, if_neg digit]

/-- The tokens in front of a blank are finished if those of the whole text are. -/
theorem valid_front {text q : List Char} (closed : quoteOpen false text = false) {offset : Nat}
    (valid : ∀ t ∈ allFrom offset 0 (text ++ ' ' :: q), t.kind ≠ .invalid) :
    ∀ t ∈ allFrom offset 0 text, t.kind ≠ .invalid := by
  induction text using text_induction generalizing offset with
  | nil => nofun
  | cons c cs ih =>
    by_cases blank : ∀ x ∈ c :: cs, isSpace x
    · have alone := allFrom_blanks (v := []) (by simp) blank (by simp) offset
      rw [List.append_nil] at alone
      rw [alone]
      exact List.forall_mem_singleton.2 nofun
    · rw [List.cons_append, allFrom_cons] at valid
      have first : (next c cs).1 ≠ .invalid := fun bad =>
        valid _ List.mem_cons_self (next_invalid_append bad closed q)
      have same : next c (cs ++ ' ' :: q) = next c cs :=
        next_append_blank (fun space all => blank (List.forall_mem_cons.2 ⟨space, all⟩)) first q
      rw [same, List.take_append_of_le_length (next_le c cs),
        List.drop_append_of_le_length (next_le c cs)] at valid
      have rest : quoteOpen false (cs.drop (next c cs).2) = false := by
        rwa [← List.take_append_drop (next c cs).2 cs, ← List.cons_append, quoteOpen_append,
          quoteOpen_next first] at closed
      rw [allFrom_cons]
      exact List.forall_mem_cons.2 ⟨first, ih rest fun t ht => valid t (List.mem_cons_of_mem _ ht)⟩

end Lexeme

end InventoryQuery
