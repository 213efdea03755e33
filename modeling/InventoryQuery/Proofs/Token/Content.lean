import InventoryQuery.Token.Stream

/-! The tokens of a text, apart from the one for its end. Only that one has its kind, so the end of
the input is where it should be. -/

namespace InventoryQuery

namespace Lexeme

/-- The chosen spelling is one of the table, and the text starts with it. -/
theorem foldl_longerSpelling_mem {cs : List Char} {table : List (List Char × Kind)}
    {best : Option (Kind × Nat)} {k : Kind} {n : Nat}
    (h : table.foldl (longerSpelling cs) best = some (k, n)) :
    best = some (k, n) ∨ ∃ s ∈ table, s.2 = k ∧ s.1.length = n ∧ s.1 <+: cs := by
  induction table generalizing best with
  | nil => exact .inl h
  | cons s table ih =>
    rcases ih h with hb | ⟨t, ht, hk⟩
    · unfold longerSpelling at hb
      split at hb
      · rename_i hs
        rw [Bool.and_eq_true] at hs
        cases hb
        exact .inr ⟨s, List.mem_cons_self, rfl, rfl, List.isPrefixOf_iff_prefix.1 hs.1⟩
      · exact .inl hb
    · exact .inr ⟨t, List.mem_cons_of_mem _ ht, hk⟩

theorem longestSpelling?_mem {cs : List Char} {k : Kind} {n : Nat}
    (h : longestSpelling? cs = some (k, n)) :
    ∃ s ∈ spellings, s.2 = k ∧ s.1.length = n ∧ s.1 <+: cs :=
  (foldl_longerSpelling_mem h).resolve_left nofun

theorem next_ne_endOfInput (c : Char) (cs : List Char) : (next c cs).1 ≠ .endOfInput := by
  have table : ∀ s ∈ spellings, s.2 ≠ .endOfInput := by decide
  unfold next
  split
  · exact nofun
  split
  · exact nofun
  split
  · exact nofun
  split
  · dsimp only
    split <;> exact nofun
  split
  · rename_i h
    obtain ⟨s, hs, rfl, -⟩ := longestSpelling?_mem h
    exact table s hs
  · exact nofun

theorem allFrom_ne_endOfInput (offset skip : Nat) (cs : List Char) :
    ∀ t ∈ allFrom offset skip cs, t.kind ≠ .endOfInput := by
  induction cs generalizing offset skip with
  | nil => nofun
  | cons c cs ih =>
    cases skip with
    | succ skip => exact ih _ skip
    | zero =>
      intro t ht
      rcases List.mem_cons.1 ht with rfl | ht
      · exact next_ne_endOfInput c cs
      · exact ih _ _ t ht

end Lexeme

namespace Token

section joinWords

variable {open? : Option Token} {gap : List Char} {t : Token} {ts : List Token}

theorem joinWords_blank (h : t.kind = .blank) :
    joinWords open? gap (t :: ts) = joinWords open? (gap ++ t.text) ts := by
  rw [joinWords.eq_def]
  simp only [h]

theorem joinWords_word (h : t.kind = .word) :
    joinWords open? gap (t :: ts) =
      joinWords (some (open?.elim { t with kind := .phrase } fun p =>
        { p with text := p.text ++ gap ++ t.text })) [] ts := by
  rw [joinWords.eq_def]
  cases open? <;> simp only [h] <;> rfl

theorem joinWords_other (hb : t.kind ≠ .blank) (hw : t.kind ≠ .word) :
    joinWords open? gap (t :: ts) = open?.toList ++ t :: joinWords none [] ts := by
  rw [joinWords.eq_def]
  dsimp only
  split
  · contradiction
  · contradiction
  · rfl

end joinWords

/-- The second list has the tokens of the first one that are neither blanks nor words, and phrases with
the property `P` between them. -/
inductive Joins (P : Token → Prop) : List Token → List Token → Prop
  | done {o : Option Token} : (∀ p ∈ o, P p) → Joins P [] o.toList
  | taken {t : Token} {ts us : List Token} : t.kind = .blank ∨ t.kind = .word → Joins P ts us → Joins P (t :: ts) us
  | kept {o : Option Token} {t : Token} {ts us : List Token} : (∀ p ∈ o, P p) → t.kind ≠ .blank → t.kind ≠ .word →
    Joins P ts us → Joins P (t :: ts) (o.toList ++ t :: us)

/-- A property of words that more text does not take away is one of phrases. -/
theorem joins_joinWords {P : Token → Prop} (longer : ∀ p u v, P p → P { p with text := p.text ++ u ++ v })
    {open? : Option Token} {gap : List Char} {ts : List Token} (ho : ∀ p ∈ open?, P p)
    (words : ∀ t ∈ ts, t.kind = .word → P { t with kind := .phrase }) : Joins P ts (joinWords open? gap ts) := by
  induction ts generalizing open? gap with
  | nil => exact .done ho
  | cons t ts ih =>
    obtain ⟨first, others⟩ := List.forall_mem_cons.1 words
    by_cases blank : t.kind = .blank
    · rw [joinWords_blank blank]
      exact .taken (.inl blank) (ih ho others)
    by_cases word : t.kind = .word
    · rw [joinWords_word word]
      refine .taken (.inr word) (ih ?_ others)
      rintro _ ⟨⟩
      cases open? with
      | none => exact first word
      | some p => exact longer p gap t.text (ho p rfl)
    · rw [joinWords_other blank word]
      exact .kept ho blank word (ih (by simp) others)

namespace Joins

variable {P : Token → Prop} {t : Token} {ts us : List Token}

theorem mem (h : Joins P ts us) (ht : t ∈ us) : P t ∨ t ∈ ts ∧ t.kind ≠ .blank ∧ t.kind ≠ .word := by
  induction h with
  | done ho => exact .inl (ho t (by simpa using ht))
  | @taken u _ _ _ _ ih => exact (ih ht).imp_right fun h => ⟨List.mem_cons_of_mem u h.1, h.2⟩
  | @kept _ u _ _ ho blank word _ ih =>
    rcases List.mem_append.1 ht with phrase | later
    · exact .inl (ho t (by simpa using phrase))
    rcases List.mem_cons.1 later with rfl | later
    · exact .inr ⟨List.mem_cons_self, blank, word⟩
    · exact (ih later).imp_right fun h => ⟨List.mem_cons_of_mem u h.1, h.2⟩

theorem mem_of_mem (h : Joins P ts us) (ht : t ∈ ts) (blank : t.kind ≠ .blank) (word : t.kind ≠ .word) : t ∈ us := by
  induction h with
  | done => cases ht
  | taken kind _ ih =>
    rcases List.mem_cons.1 ht with rfl | later
    · exact absurd kind (not_or.2 ⟨blank, word⟩)
    · exact ih later
  | kept _ _ _ _ ih =>
    rcases List.mem_cons.1 ht with rfl | later
    · simp
    · exact List.mem_append_right _ (List.mem_cons_of_mem _ (ih later))

/-- What is not looked for among blanks, words and phrases is found as before. -/
theorem filter_eq {p : Token → Bool} (h : Joins P ts us) (phrases : ∀ t, P t → p t = false)
    (taken : ∀ t ∈ ts, t.kind = .blank ∨ t.kind = .word → p t = false) : us.filter p = ts.filter p := by
  have dropped {o : Option Token} (ho : ∀ q ∈ o, P q) : o.toList.filter p = [] :=
    List.filter_eq_nil_iff.2 fun q hq => by simp [phrases q (ho q (by simpa using hq))]
  induction h with
  | done ho => exact dropped ho
  | taken kind _ ih =>
    obtain ⟨first, others⟩ := List.forall_mem_cons.1 taken
    rw [List.filter_cons_of_neg (by simp [first kind]), ih others]
  | kept ho _ _ _ ih =>
    obtain ⟨-, others⟩ := List.forall_mem_cons.1 taken
    rw [List.filter_append, dropped ho, List.nil_append, List.filter_cons, List.filter_cons, ih others]

end Joins

end Token

theorem tokens_eq (text : List Char) :
    tokens text = (tokens text).dropLast ++ [Token.endOf text] := by
  rw [tokens, List.dropLast_concat]

theorem joins_tokens {P : Token → Prop} (longer : ∀ p u v, P p → P { p with text := p.text ++ u ++ v })
    {text : List Char} (words : ∀ t ∈ lexemes text, t.kind = .word → P { t with kind := .phrase }) :
    Token.Joins P (lexemes text) (tokens text).dropLast := by
  rw [tokens, List.dropLast_concat]
  exact Token.joins_joinWords longer (by simp) words

theorem joins_phrases (text : List Char) : Token.Joins (·.kind = .phrase) (lexemes text) (tokens text).dropLast :=
  joins_tokens (fun _ _ _ => id) fun _ _ _ => rfl

theorem kind_ne_endOfInput {text : List Char} {t : Token} (ht : t ∈ (tokens text).dropLast) :
    t.kind ≠ .endOfInput := by
  rcases (joins_phrases text).mem ht with h | ⟨h, -⟩
  · simp [h]
  · exact Lexeme.allFrom_ne_endOfInput 0 0 text t h

end InventoryQuery
