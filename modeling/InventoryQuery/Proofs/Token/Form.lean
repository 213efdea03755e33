import InventoryQuery.Grammar.Rules
import InventoryQuery.Proofs.Keyword.Joining
import InventoryQuery.Proofs.Token.Reading

/-! What the tokens of a text look like: names are words with one space between them once their
blanks are evened out, numerals are digits, strings have quotes at both ends only, and relations are
spelled as in the table. -/

namespace InventoryQuery

open Lexeme Grammar

theorem isBlank_of_isSpace {c : Char} (h : isSpace c) : isBlank c := by
  simp only [isSpace, decide_eq_true_eq, Bool.or_eq_true] at h
  rcases h with (((rfl | rfl) | rfl) | rfl) | rfl <;> decide

theorem not_isBlank_of_isWordPart {c : Char} (h : isWordPart c) : isBlank c = false := by
  have codes : 48 ≤ c.toNat ∧ c.toNat ≤ 122 := by
    simp only [isWordPart, isLetter, isDigit, Bool.and_eq_true, Bool.or_eq_true, decide_eq_true_eq,
      Char.le_def, UInt32.le_iff_toNat_le] at h
    change 48 ≤ c.val.toNat ∧ c.val.toNat ≤ 122
    rcases h with (h | h) | rfl
    · have bounds : ('a' : Char).val.toNat = 97 ∧ ('z' : Char).val.toNat = 122 ∧
        ('A' : Char).val.toNat = 65 ∧ ('Z' : Char).val.toNat = 90 := ⟨rfl, rfl, rfl, rfl⟩
      omega
    · have bounds : ('0' : Char).val.toNat = 48 ∧ ('9' : Char).val.toNat = 57 := ⟨rfl, rfl⟩
      omega
    · decide
  simp only [isBlank, Bool.or_eq_false_iff, Bool.and_eq_false_iff, decide_eq_false_iff_not,
    beq_eq_false_iff_ne]
  omega

theorem IsWord.wordPart {w : List Char} (h : IsWord w) : ∀ c ∈ w, isWordPart c := by
  obtain ⟨c, cs, rfl, hc, hs⟩ := h
  exact List.forall_mem_cons.2 ⟨by rw [isWordPart, hc]; rfl, hs⟩

theorem IsWord.not_isBlank {w : List Char} (h : IsWord w) : ∀ c ∈ w, isBlank c = false :=
  fun c hc => not_isBlank_of_isWordPart (h.wordPart c hc)

theorem blankSeparated_go_append {b : Char} (hb : isBlank b) (word p cs : List Char) :
    blankSeparated.go word (p ++ b :: cs) = blankSeparated.go word p ++ blankSeparated cs := by
  induction p generalizing word with
  | nil =>
    rw [List.nil_append, blankSeparated.go, blankSeparated.go, if_pos hb]
    split <;> rfl
  | cons c p ih =>
    rw [List.cons_append, blankSeparated.go, blankSeparated.go]
    split
    · split
      · exact ih []
      · rw [ih [], List.cons_append]
    · exact ih _

/-- A blank ends the words before it. -/
theorem blankSeparated_append {b : Char} (hb : isBlank b) (p cs : List Char) :
    blankSeparated (p ++ b :: cs) = blankSeparated p ++ blankSeparated cs :=
  blankSeparated_go_append hb [] p cs

theorem blankSeparated_blanks {gap : List Char} (hg : ∀ c ∈ gap, isBlank c) (cs : List Char) :
    blankSeparated (gap ++ cs) = blankSeparated cs := by
  induction gap with
  | nil => rfl
  | cons b gap ih =>
    obtain ⟨hb, hg⟩ := List.forall_mem_cons.1 hg
    exact (blankSeparated_append hb [] (gap ++ cs)).trans (ih hg)

theorem blankSeparated_go_word (word : List Char) {w : List Char} (h : ∀ c ∈ w, isBlank c = false)
    (hne : word ++ w ≠ []) : blankSeparated.go word w = [word.reverse ++ w] := by
  induction w generalizing word with
  | nil => simp_all [blankSeparated.go]
  | cons c w ih =>
    obtain ⟨hc, h⟩ := List.forall_mem_cons.1 h
    rw [blankSeparated.go, if_neg (by simp [hc]), ih (c :: word) h (by simp)]
    simp

theorem IsWord.separated {w : List Char} (h : IsWord w) : blankSeparated w = [w] := by
  refine blankSeparated_go_word [] h.not_isBlank ?_
  obtain ⟨c, cs, rfl, -⟩ := h
  simp

/-- Words, at least one, with blanks between them. -/
def Wordy (text : List Char) : Prop :=
  blankSeparated text ≠ [] ∧ ∀ w ∈ blankSeparated text, IsWord w

theorem Wordy.word {w : List Char} (h : IsWord w) : Wordy w := by
  unfold Wordy
  rw [h.separated]
  exact ⟨by simp, by simpa using h⟩

theorem IsWord.separated_append {gap w : List Char} (hw : IsWord w) (hg : ∀ c ∈ gap, isSpace c)
    (hne : gap ≠ []) (p : List Char) : blankSeparated (p ++ gap ++ w) = blankSeparated p ++ [w] := by
  cases gap with
  | nil => exact absurd rfl hne
  | cons b gap =>
    obtain ⟨hb, hg⟩ := List.forall_mem_cons.1 hg
    rw [List.append_assoc, List.cons_append, blankSeparated_append (isBlank_of_isSpace hb),
      blankSeparated_blanks fun c hc => isBlank_of_isSpace (hg c hc), hw.separated]

theorem Wordy.join {p gap w : List Char} (hp : Wordy p) (hg : ∀ c ∈ gap, isSpace c) (hne : gap ≠ [])
    (hw : IsWord w) : Wordy (p ++ gap ++ w) := by
  unfold Wordy
  rw [hw.separated_append hg hne]
  refine ⟨by simp, fun x hx => ?_⟩
  rcases List.mem_append.1 hx with hx | hx
  · exact hp.2 x hx
  · exact List.mem_singleton.1 hx ▸ hw

theorem isName_intercalate {words : List (List Char)} (hne : words ≠ [])
    (hw : ∀ w ∈ words, IsWord w) : IsName ([' '].intercalate words) := by
  induction words with
  | nil => exact absurd rfl hne
  | cons w words ih =>
    obtain ⟨first, rest⟩ := List.forall_mem_cons.1 hw
    cases words with
    | nil => simpa using IsName.word first
    | cons v words => simpa using IsName.join first (ih (by simp) rest)

theorem Wordy.isName {text : List Char} (h : Wordy text) : IsName (phraseName text).toList := by
  rw [phraseName, String.toList_ofList]
  exact isName_intercalate h.1 h.2

/-- Evening out the blanks of a name changes nothing. -/
theorem IsName.intercalate_words {n : List Char} (h : IsName n) :
    n = [' '].intercalate (blankSeparated n) := by
  induction h with
  | word hw => simp [hw.separated]
  | @join w n hw hn ih =>
    rw [blankSeparated_append (by decide), hw.separated]
    cases hb : blankSeparated n with
    | nil =>
      obtain ⟨c, cs, rfl, -⟩ := hn.starts
      rw [hb] at ih
      cases ih
    | cons v vs =>
      rw [hb] at ih
      conv_lhs => rw [ih]
      simp

theorem IsName.phraseName {n : List Char} (h : IsName n) : phraseName n = String.ofList n := by
  rw [Grammar.phraseName, ← h.intercalate_words]

namespace Token

def Formed (t : Token) : Prop :=
  match t.kind with
  | .phrase => IsName (phraseName t.text).toList
  | .numeral => IsNumeral t.text
  | .string => ∃ body, t.text = '"' :: (body ++ ['"']) ∧ '"' ∉ body
  | .blank | .word | .invalid | .endOfInput => True
  | k => (t.text, k) ∈ spellings

end Token

namespace Lexeme

theorem take_run {p : Char → Bool} {cs : List Char} :
    (∀ d ∈ cs.take (cs.takeWhile p).length, p d) ∧
      ∀ d ∈ (cs.drop (cs.takeWhile p).length).head?, ¬ p d := by
  rw [Rewrite.drop_takeWhile, ← List.prefix_iff_eq_take.1 (List.takeWhile_prefix p)]
  refine ⟨fun d => List.mem_takeWhile_imp, fun d hd => ?_⟩
  have := List.head?_dropWhile_not p cs
  rw [Option.mem_def.1 hd] at this
  simpa using this

/-- A token is a word and ends where it has to, or it is made of blanks, or it is in form. -/
theorem next_formed (c : Char) (cs : List Char) (offset : Nat) :
    ((next c cs).1 = .word ∧ IsWord (c :: cs.take (next c cs).2) ∧
      ∀ d ∈ (cs.drop (next c cs).2).head?, ¬ isWordPart d) ∨
    ((next c cs).1 = .blank ∧ ∀ d ∈ c :: cs.take (next c cs).2, isSpace d) ∨
    ((next c cs).1 ≠ .word ∧ (next c cs).1 ≠ .blank ∧
      Token.Formed ⟨(next c cs).1, c :: cs.take (next c cs).2, offset⟩) := by
  by_cases space : isSpace c
  · have found : next c cs = (.blank, (cs.takeWhile isSpace).length) := by rw [next, if_pos space]
    rw [found]
    exact .inr (.inl ⟨rfl, List.forall_mem_cons.2 ⟨space, take_run.1⟩⟩)
  by_cases letter : isLetter c
  · have found : next c cs = (.word, (cs.takeWhile isWordPart).length) := by
      rw [next, if_neg space, if_pos letter]
    rw [found]
    exact .inl ⟨rfl, ⟨c, _, rfl, letter, take_run.1⟩, take_run.2⟩
  obtain ⟨blank, word⟩ := next_ne_word space letter cs
  refine .inr (.inr ⟨word, blank, ?_⟩)
  unfold next
  rw [if_neg space, if_neg letter]
  split
  · rename_i digit
    exact ⟨by simp, List.forall_mem_cons.2 ⟨digit, take_run.1⟩⟩
  split
  · rename_i quote
    dsimp only
    split
    · rename_i hlt
      obtain ⟨body, clean, taken⟩ := take_string hlt
      exact ⟨body, by rw [taken, quote], clean⟩
    · trivial
  split
  · rename_i k n hs
    obtain ⟨⟨w, k⟩, hm, rfl, rfl, hp⟩ := longestSpelling?_mem hs
    have kinds : ∀ s ∈ spellings, s.1 ≠ [] ∧ s.2 ≠ .phrase ∧ s.2 ≠ .numeral ∧ s.2 ≠ .string := by
      decide +kernel
    obtain ⟨hne, phrase, numeral, string⟩ := kinds _ hm
    have text : c :: cs.take (w.length - 1) = w := by
      cases w with
      | nil => exact absurd rfl hne
      | cons d ds =>
        obtain ⟨rfl, ht⟩ := List.cons_prefix_cons.1 hp
        rw [show (d :: ds).length - 1 = ds.length from rfl, ← List.prefix_iff_eq_take.1 ht]
    unfold Token.Formed
    dsimp only
    rw [text]
    split <;> first | contradiction | trivial
  · trivial

end Lexeme

/-- Words are joined where blanks are between them, so that names are in form as well. -/
theorem Token.formed_joinWords {text : List Char} (open? : Option Token) {gap : List Char}
    (offset : Nat) (hg : ∀ c ∈ gap, isSpace c) (ho : ∀ p ∈ open?, p.kind = .phrase ∧ Wordy p.text ∧
      (gap = [] → ∀ c ∈ text.head?, ¬ isWordPart c)) :
    ∀ t ∈ joinWords open? gap (allFrom offset 0 text), t.Formed := by
  have finished {p : Token} (h : p.kind = .phrase ∧ Wordy p.text) : p.Formed := by
    rw [Formed, h.1]
    exact h.2.isName
  induction text using text_induction generalizing open? gap offset with
  | nil =>
    intro t ht
    obtain ⟨kind, words, -⟩ := ho t (by simpa [allFrom, joinWords] using ht)
    exact finished ⟨kind, words⟩
  | cons c cs ih =>
    rw [allFrom_cons]
    rcases next_formed c cs offset with ⟨kind, word, stop⟩ | ⟨kind, blanks⟩ | ⟨word, blank, formed⟩
    · rw [joinWords_word kind]
      refine ih _ _ (by simp) ?_
      rintro _ ⟨⟩
      cases open? with
      | none => exact ⟨rfl, .word word, fun _ => stop⟩
      | some p =>
        obtain ⟨phrase, words, apart⟩ := ho p rfl
        refine ⟨phrase, words.join hg (fun tight => ?_) word, fun _ => stop⟩
        obtain ⟨d, ds, same, letter, -⟩ := word
        cases same
        exact apart tight c rfl (by rw [isWordPart, letter]; rfl)
    · rw [joinWords_blank kind]
      refine ih _ _ (fun d hd => ?_) fun p hp => ?_
      · exact (List.mem_append.1 hd).elim (hg d) (blanks d)
      · obtain ⟨phrase, words, -⟩ := ho p hp
        exact ⟨phrase, words, fun tight => by simp at tight⟩
    · rw [joinWords_other blank word]
      intro t ht
      rcases List.mem_append.1 ht with ht | ht
      · obtain ⟨phrase, words, -⟩ := ho t (by simpa using ht)
        exact finished ⟨phrase, words⟩
      · rcases List.mem_cons.1 ht with rfl | ht
        · exact formed
        · exact ih none _ (by simp) (by simp) t ht

theorem formed_tokens (text : List Char) : ∀ t ∈ (tokens text).dropLast, t.Formed := by
  rw [tokens, List.dropLast_concat]
  exact Token.formed_joinWords none 0 (by simp) (by simp)

end InventoryQuery
