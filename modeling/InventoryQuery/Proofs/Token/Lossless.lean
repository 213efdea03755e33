import Mathlib.Data.List.Forall2
import Mathlib.Data.List.SplitBy
import InventoryQuery.Proofs.Token.Longest

/-! Nothing of a text is lost on the way to the grammar. The lexemes are the text, cut at each place
behind the longest match. The tokens are the lexemes without the blanks, where words that only blanks
separate are one phrase, and this phrase is the text from the first word to the last. -/

namespace InventoryQuery

open Lexeme

/-- `w` is what stands in the text on a span of its bytes. -/
def Slice (text : List Char) (s : Span) (w : List Char) : Prop :=
  ∃ before after, text = before ++ w ++ after ∧ byteSize before = s.start ∧ byteSize (before ++ w) = s.stop

/-- The lexemes of a text, one behind the other and each as long as it can be. -/
structure Cuts (text : List Char) (ls : List Token) : Prop where
  filled : ∀ t ∈ ls, t.text ≠ []
  covers : ls.flatMap Token.text = text
  starts : ∀ t ∈ ls.head?, t.start = 0
  meets : ls.IsChain fun t u => u.start = t.span.stop
  longest : ∀ pre t post, ls = pre ++ t :: post →
    LongestMatch ((t :: post).flatMap Token.text) t.kind t.text ∨
      Unmatched ((t :: post).flatMap Token.text) t.kind t.text

def bothWords (t u : Token) : Bool := t.kind = .word && u.kind = .word

/-- The lexemes that are no blanks. Words that stand next to each other are in one group. -/
def groups (ls : List Token) : List (List Token) := (ls.filter (!·.kind.isBlank)).splitBy bothWords

/-- A group of words is one phrase, from the first of them to the last; any other lexeme is a token. -/
inductive Merged (text : List Char) : List Token → Token → Prop
  | phrase {words : List Token} {first last : Token} {w : List Char} : (∀ t ∈ words, t.kind = .word) →
    words.head? = some first → words.getLast? = some last →
    Slice text ⟨first.start, last.span.stop⟩ w → Merged text words ⟨.phrase, w, first.start⟩
  | kept {t : Token} : t.kind ≠ .word → Merged text [t] t

/-- From a byte on the text is made of the tokens, with nothing but blanks between them. -/
inductive Laid : (offset : Nat) → List Char → List Token → Prop
  | blanks {offset : Nat} {gap : List Char} : (∀ c ∈ gap, isSpace c) → Laid offset gap []
  | token {offset : Nat} {gap w rest : List Char} {k : Kind} {ts : List Token} :
    (∀ c ∈ gap, isSpace c) → Laid (offset + byteSize gap + byteSize w) rest ts →
    Laid offset (gap ++ (w ++ rest)) (⟨k, w, offset + byteSize gap⟩ :: ts)

structure Merges (text : List Char) (ls ts : List Token) : Prop where
  merged : List.Forall₂ (Merged text) (groups ls) ts
  kinds : ∀ t ∈ ts, t.kind ∉ [Kind.blank, .word, .endOfInput]
  apart : ts.IsChain fun t u => ¬ (t.kind = .phrase ∧ u.kind = .phrase)
  laid : Laid 0 text ts

namespace Lexeme

theorem allFrom_filled (offset : Nat) (text : List Char) : ∀ t ∈ allFrom offset 0 text, t.text ≠ [] := by
  induction text using text_induction generalizing offset with
  | nil => simp [allFrom]
  | cons c cs ih =>
    rw [allFrom_cons]
    exact List.forall_mem_cons.2 ⟨by simp, ih _⟩

theorem flatMap_allFrom (offset : Nat) (text : List Char) :
    (allFrom offset 0 text).flatMap Token.text = text := by
  induction text using text_induction generalizing offset with
  | nil => rfl
  | cons c cs ih =>
    rw [allFrom_cons, List.flatMap_cons, ih]
    exact congrArg (c :: ·) (List.take_append_drop _ cs)

theorem start_allFrom (offset : Nat) (text : List Char) :
    ∀ t ∈ (allFrom offset 0 text).head?, t.start = offset := by
  cases text with
  | nil => simp [allFrom]
  | cons c cs =>
    rw [allFrom_cons]
    rintro _ ⟨⟩
    rfl

theorem meets_allFrom (offset : Nat) (text : List Char) :
    (allFrom offset 0 text).IsChain fun t u => u.start = t.span.stop := by
  induction text using text_induction generalizing offset with
  | nil => exact List.isChain_nil
  | cons c cs ih =>
    rw [allFrom_cons, List.isChain_cons]
    exact ⟨start_allFrom _ _, ih _⟩

theorem longest_allFrom (offset : Nat) (text : List Char) (pre : List Token) (t : Token)
    (post : List Token) (h : allFrom offset 0 text = pre ++ t :: post) :
    LongestMatch ((t :: post).flatMap Token.text) t.kind t.text ∨
      Unmatched ((t :: post).flatMap Token.text) t.kind t.text := by
  induction text using text_induction generalizing offset pre with
  | nil => simp [allFrom] at h
  | cons c cs ih =>
    cases pre with
    | nil =>
      have whole := flatMap_allFrom offset (c :: cs)
      rw [h, List.nil_append] at whole
      rw [whole]
      rw [allFrom_cons, List.nil_append] at h
      obtain ⟨rfl, -⟩ := List.cons_eq_cons.1 h
      exact next_longest c cs
    | cons u pre =>
      rw [allFrom_cons, List.cons_append] at h
      exact ih _ pre (List.cons_eq_cons.1 h).2

end Lexeme

theorem cuts_lexemes (text : List Char) : Cuts text (lexemes text) where
  filled := allFrom_filled 0 text
  covers := flatMap_allFrom 0 text
  starts := start_allFrom 0 text
  meets := meets_allFrom 0 text
  longest := longest_allFrom 0 text

namespace Token

/-- What has been collected of a phrase before some place of the text: its words, the first of which
starts where the phrase does, and the blanks since the last of them. -/
def Collected (pre : List Char) (words : List Token) (gap : List Char) : Option Token → Prop
  | none => words = []
  | some p => (∀ t ∈ words, t.kind = .word) ∧ ∃ before first last, pre = before ++ p.text ++ gap ∧
      words.head? = some first ∧ words.getLast? = some last ∧ p = ⟨.phrase, p.text, first.start⟩ ∧
      byteSize before = first.start ∧ byteSize (before ++ p.text) = last.span.stop

variable {pre gap : List Char} {words : List Token} {open? : Option Token}

theorem Collected.blanks (h : Collected pre words gap open?) (w : List Char) :
    Collected (pre ++ w) words (gap ++ w) open? := by
  cases open? with
  | none => exact h
  | some p =>
    obtain ⟨kinds, before, first, last, rfl, place⟩ := h
    exact ⟨kinds, before, first, last, by simp only [List.append_assoc], place⟩

theorem Collected.word (h : Collected pre words gap open?) (w : List Char) :
    Collected (pre ++ w) (words ++ [⟨.word, w, byteSize pre⟩]) []
      (some (open?.elim ⟨.phrase, w, byteSize pre⟩ fun p => { p with text := p.text ++ gap ++ w })) := by
  cases open? with
  | none =>
    obtain rfl := h
    refine ⟨by simp, pre, _, _, (List.append_nil _).symm, rfl, rfl, rfl, rfl, ?_⟩
    simp [Token.span]
  | some p =>
    obtain ⟨kinds, before, first, last, rfl, head, -, same, start, -⟩ := h
    refine ⟨?_, before, first, _, ?_, ?_, List.getLast?_concat, ?_, start, ?_⟩
    · simpa [or_imp, forall_and] using kinds
    · simp
    · rw [List.head?_append, head]; rfl
    · rw [same]; rfl
    · simp [Token.span, Nat.add_assoc]

/-- A lexeme that is no word ends the phrase. -/
theorem Collected.finished {whole post : List Char} (h : Collected pre words gap open?)
    (split : whole = pre ++ post) : List.Forall₂ (Merged whole) (words.splitBy bothWords) open?.toList := by
  cases open? with
  | none =>
    obtain rfl := h
    exact .nil
  | some p =>
    obtain ⟨kinds, before, first, last, rfl, head, final, same, start, stop⟩ := h
    have filled : words ≠ [] := by
      rintro rfl
      cases head
    have run : words.IsChain fun t u => bothWords t u := by
      rw [List.isChain_iff_forall_rel_of_append_cons_cons]
      rintro t u before after rfl
      simp [bothWords, kinds t (by simp), kinds u (by simp)]
    rw [List.splitBy_of_isChain filled run, same]
    refine .cons (.phrase kinds head final ⟨before, gap ++ post, ?_, start, stop⟩) .nil
    rw [split]
    simp

/-- Words and blanks are collected, and any other lexeme is in a group by itself. -/
theorem merged_joinWords {whole : List Char} (text : List Char) (h : Collected pre words gap open?)
    (split : whole = pre ++ text) :
    List.Forall₂ (Merged whole)
      ((words ++ (allFrom (byteSize pre) 0 text).filter (!·.kind.isBlank)).splitBy bothWords)
      (joinWords open? gap (allFrom (byteSize pre) 0 text)) := by
  induction text using text_induction generalizing pre words gap open? with
  | nil =>
    rw [allFrom, List.filter_nil, List.append_nil, joinWords]
    exact h.finished split
  | cons c cs ih =>
    have later : whole = (pre ++ c :: cs.take (next c cs).2) ++ cs.drop (next c cs).2 := by simp [split]
    rw [allFrom_cons, ← byteSize_append]
    generalize (next c cs).1 = k, c :: cs.take (next c cs).2 = w, cs.drop (next c cs).2 = rest at later ih ⊢
    by_cases blank : k = .blank
    · rw [joinWords_blank blank, List.filter_cons_of_neg (by simp [blank, Kind.isBlank])]
      exact ih (h.blanks w) later
    have kept : (!k.isBlank) = true := by cases k <;> first | rfl | exact absurd rfl blank
    rw [List.filter_cons_of_pos (by exact kept)]
    by_cases word : k = .word
    · subst word
      rw [joinWords_word rfl, List.append_cons]
      exact ih (h.word w) later
    · rw [joinWords_other blank word, List.splitBy_append_cons, ← List.singleton_append,
        List.splitBy_append]
      · have nothing : Collected (pre ++ w) [] [] none := rfl
        exact List.rel_append (h.finished split) (.cons (.kept word) (ih nothing later))
      · simp [bothWords, word]
      · simp [bothWords, word]

/-- No two phrases stand side by side, if the tokens that are joined are no phrases. -/
theorem Joins.apart {ts us : List Token} (h : Joins (·.kind = .phrase) ts us) (ht : ∀ t ∈ ts, t.kind ≠ .phrase) :
    us.IsChain fun t u => ¬ (t.kind = .phrase ∧ u.kind = .phrase) := by
  induction h with
  | @done o => cases o <;> simp
  | taken _ _ ih => exact ih (List.forall_mem_cons.1 ht).2
  | @kept o t _ us _ _ _ _ ih =>
    obtain ⟨first, others⟩ := List.forall_mem_cons.1 ht
    have rest : (t :: us).IsChain fun t u => ¬ (t.kind = .phrase ∧ u.kind = .phrase) :=
      List.isChain_cons.2 ⟨fun _ _ both => first both.1, ih others⟩
    cases o with
    | none => exact rest
    | some p => exact List.isChain_cons.2 ⟨by rintro _ ⟨⟩ both; exact first both.2, rest⟩

end Token

namespace Laid

variable {offset : Nat} {gap w rest : List Char} {ts : List Token}

/-- Blanks in front make the first gap wider. -/
theorem lead (hg : ∀ c ∈ gap, isSpace c) (h : Laid (offset + byteSize gap) rest ts) :
    Laid offset (gap ++ rest) ts := by
  generalize hs : offset + byteSize gap = start at h
  cases h with
  | blanks spaces => exact .blanks fun c hc => (List.mem_append.1 hc).elim (hg c) (spaces c)
  | @token _ gap' w rest k ts spaces later =>
    subst hs
    have wide : offset + byteSize gap + byteSize gap' = offset + byteSize (gap ++ gap') := by
      rw [byteSize_append, Nat.add_assoc]
    rw [wide] at later ⊢
    rw [← List.append_assoc]
    exact .token (fun c hc => (List.mem_append.1 hc).elim (hg c) (spaces c)) later

theorem cons (t : Token) (h : Laid t.span.stop rest ts) : Laid t.start (t.text ++ rest) (t :: ts) :=
  .token (List.forall_mem_nil _) h

end Laid

namespace Token

theorem laid_joinWords (text : List Char) :
    (∀ offset gap, Laid offset text (joinWords none gap (allFrom offset 0 text))) ∧
    ∀ p gap, (∀ c ∈ gap, isSpace c) → Laid p.start (p.text ++ (gap ++ text))
      (joinWords (some p) gap (allFrom (p.span.stop + byteSize gap) 0 text)) := by
  induction text using text_induction with
  | nil =>
    refine ⟨fun _ _ => .blanks (by simp), fun p gap spaces => .cons p (.blanks ?_)⟩
    simpa using spaces
  | cons c cs ih =>
    obtain ⟨apart, joined⟩ := ih
    have formed := next_formed c cs 0
    have whole : c :: cs = (c :: cs.take (next c cs).2) ++ cs.drop (next c cs).2 := by simp
    simp only [allFrom_cons]
    rw [whole]
    generalize (next c cs).1 = k, c :: cs.take (next c cs).2 = w, cs.drop (next c cs).2 = rest at formed apart joined ⊢
    rcases formed with ⟨rfl, -⟩ | ⟨rfl, blanks⟩ | ⟨word, blank, -⟩
    · refine ⟨fun offset gap => ?_, fun p gap spaces => ?_⟩
      · rw [joinWords_word rfl]
        exact joined ⟨.phrase, w, offset⟩ [] (by simp)
      · rw [joinWords_word rfl]
        have longer := joined { p with text := p.text ++ gap ++ w } [] (by simp)
        simpa [span, Nat.add_assoc] using longer
    · refine ⟨fun offset gap => ?_, fun p gap spaces => ?_⟩
      · rw [joinWords_blank rfl]
        exact .lead blanks (apart _ _)
      · rw [joinWords_blank rfl]
        have wider := joined p (gap ++ w) fun c hc => (List.mem_append.1 hc).elim (spaces c) (blanks c)
        simpa [Nat.add_assoc] using wider
    · refine ⟨fun offset gap => ?_, fun p gap spaces => ?_⟩
      · rw [joinWords_other blank word]
        exact .cons ⟨k, w, offset⟩ (apart _ _)
      · rw [joinWords_other blank word]
        exact .cons p (.lead spaces (.cons ⟨k, w, _⟩ (apart _ _)))

end Token

theorem Lexeme.Pattern.kind_ne {k : Kind} {w : List Char} (h : Pattern k w) :
    k ≠ .phrase ∧ k ≠ .endOfInput := by
  have table : ∀ s ∈ spellings, s.2 ≠ .phrase ∧ s.2 ≠ .endOfInput := by decide
  cases h with
  | spelling mem => exact table _ mem
  | _ => simp

theorem Cuts.kind_ne {text : List Char} {ls : List Token} (h : Cuts text ls) :
    ∀ t ∈ ls, t.kind ≠ .phrase ∧ t.kind ≠ .endOfInput := by
  intro t ht
  obtain ⟨pre, post, split⟩ := List.append_of_mem ht
  rcases h.longest pre t post split with ⟨-, matched, -⟩ | ⟨-, invalid, -⟩
  · exact matched.kind_ne
  · simp [invalid]

theorem merges_tokens (text : List Char) : Merges text (lexemes text) (tokens text).dropLast := by
  have kinds := (cuts_lexemes text).kind_ne
  have joins := joins_phrases text
  rw [tokens, List.dropLast_concat] at joins ⊢
  constructor
  · have nothing : Token.Collected [] [] [] none := rfl
    exact Token.merged_joinWords text nothing rfl
  · intro t ht
    rcases joins.mem ht with phrase | ⟨mem, blank, word⟩
    · simp [phrase]
    · simp [blank, word, (kinds t mem).2]
  · exact joins.apart fun t ht => (kinds t ht).1
  · exact (Token.laid_joinWords text).1 0 []

/-- The lexemes of a text are the text, cut behind each longest match; and the tokens are made of them
by leaving out blanks and joining words, up to the one token for the end of the input. -/
theorem lexing_exact (text : List Char) :
    Cuts text (lexemes text) ∧
      ∃ ts, tokens text = ts ++ [Token.endOf text] ∧ Merges text (lexemes text) ts :=
  ⟨cuts_lexemes text, _, tokens_eq text, merges_tokens text⟩

example : tokens "win  dir $of 7".toList = [⟨.phrase, "win  dir".toList, 0⟩, ⟨.ofWord, "$of".toList, 9⟩,
    ⟨.numeral, "7".toList, 13⟩, ⟨.endOfInput, [], 14⟩] := by
  decide +kernel

end InventoryQuery
