import Mathlib.Data.List.TakeWhile
import InventoryQuery.Proofs.Text.Cutting
import InventoryQuery.Proofs.Token.Content

/-! The tokens of a text that is put together from others with a token and blanks between them. As
long as no token of the first part is left unfinished, every part has the tokens that it has by
itself, at other places. -/

namespace InventoryQuery

/-- Tokens without their places. -/
def reading (ts : List Token) : List (Kind × List Char) := ts.map fun t => (t.kind, t.text)

theorem reading_append (ts us : List Token) : reading (ts ++ us) = reading ts ++ reading us :=
  List.map_append

theorem reading_cons (t : Token) (ts : List Token) :
    reading (t :: ts) = (t.kind, t.text) :: reading ts := rfl

namespace Lexeme

theorem allFrom_cons (offset : Nat) (c : Char) (cs : List Char) :
    allFrom offset 0 (c :: cs) = ⟨(next c cs).1, c :: cs.take (next c cs).2, offset⟩ ::
      allFrom (offset + byteSize (c :: cs.take (next c cs).2)) 0 (cs.drop (next c cs).2) := by
  have rest := allFrom_append (offset + c.utf8Size) (cs.take (next c cs).2) (cs.drop (next c cs).2)
  rw [List.take_append_drop, List.length_take, Nat.min_eq_left (next_le c cs)] at rest
  change (⟨(next c cs).1, c :: cs.take (next c cs).2, offset⟩ : Token) :: allFrom
    (offset + c.utf8Size) (next c cs).2 cs = _
  rw [rest, byteSize_cons, Nat.add_assoc]

/-- A text is nothing, or a token and a shorter text. -/
theorem text_induction {motive : List Char → Prop} (nil : motive [])
    (cons : ∀ c cs, motive (cs.drop (next c cs).2) → motive (c :: cs)) (text : List Char) :
    motive text := by
  induction hn : text.length using Nat.strongRecOn generalizing text with
  | ind n ih =>
    cases text with
    | nil => exact nil
    | cons c cs =>
      refine cons c cs (ih _ ?_ _ rfl)
      rw [← hn, List.length_cons, List.length_drop]
      omega

theorem reading_allFrom (offset other : Nat) (text : List Char) :
    reading (allFrom offset 0 text) = reading (allFrom other 0 text) := by
  induction text using text_induction generalizing offset other with
  | nil => rfl
  | cons c cs ih => rw [allFrom_cons, allFrom_cons, reading_cons, reading_cons, ih]

/-- A character that no token goes on with, unless it is a blank after blanks. -/
structure Stop (b : Char) : Prop where
  word : isWordPart b = false
  spelling : ∀ s ∈ spellings, b ∉ s.1.tail

theorem stop_blank : Stop ' ' := ⟨rfl, by decide +kernel⟩

theorem Stop.digit {b : Char} (h : Stop b) : isDigit b = false := by
  have word := h.word
  rw [isWordPart, Bool.or_eq_false_iff, Bool.or_eq_false_iff] at word
  exact word.1.2

theorem isPrefixOf_append_stop {s : List Char} {b : Char} (h : b ∉ s.tail) (c : Char)
    (cs q : List Char) : s.isPrefixOf (c :: (cs ++ b :: q)) = s.isPrefixOf (c :: cs) := by
  cases s with
  | nil => rfl
  | cons a s => exact congrArg (a == c && ·) (isPrefixOf_append_of_not_mem h cs q)

theorem longestSpelling?_append_stop {b : Char} (h : Stop b) (c : Char) (cs q : List Char) :
    longestSpelling? (c :: (cs ++ b :: q)) = longestSpelling? (c :: cs) :=
  List.foldl_ext _ _ none fun best s hs => by
    rw [longerSpelling, longerSpelling, isPrefixOf_append_stop (h.spelling s hs)]

/-- A stop behind the text changes no token of it, except that blanks at its end become longer. -/
theorem next_append_stop {b : Char} (hb : Stop b) {c : Char} {cs : List Char}
    (hc : isSpace b → isSpace c → ¬ ∀ d ∈ cs, isSpace d) (hv : (next c cs).1 ≠ .invalid)
    (q : List Char) : next c (cs ++ b :: q) = next c cs := by
  unfold next at hv ⊢
  by_cases space : isSpace c
  · have stops : (cs ++ b :: q).takeWhile isSpace = cs.takeWhile isSpace := by
      by_cases blank : isSpace b
      · rw [List.takeWhile_append, if_neg]
        intro hl
        refine hc blank space (List.takeWhile_eq_self_iff.1 ?_)
        exact (List.takeWhile_prefix _).eq_of_length hl
      · exact takeWhile_append_stop (by simpa using blank) cs q
    rw [if_pos space, if_pos space, stops]
  rw [if_neg space] at hv
  rw [if_neg space, if_neg space]
  by_cases letter : isLetter c
  · rw [if_pos letter, if_pos letter, takeWhile_append_stop hb.word]
  rw [if_neg letter] at hv
  rw [if_neg letter, if_neg letter]
  by_cases digit : isDigit c
  · rw [if_pos digit, if_pos digit, takeWhile_append_stop hb.digit]
  rw [if_neg digit] at hv
  rw [if_neg digit, if_neg digit]
  by_cases quote : c = '"'
  · rw [if_pos quote] at hv
    rw [if_pos quote, if_pos quote]
    dsimp only at hv ⊢
    split at hv
    · rename_i hlt
      have stops : (cs ++ b :: q).takeWhile (· ≠ '"') = cs.takeWhile (· ≠ '"') := by
        rw [List.takeWhile_append, if_neg (Nat.ne_of_lt hlt)]
      rw [stops, if_pos hlt, if_pos (by rw [List.length_append]; omega)]
    · exact absurd rfl hv
  · rw [if_neg quote, if_neg quote, longestSpelling?_append_stop hb]

theorem next_append_blank {c : Char} {cs : List Char} (hc : isSpace c → ¬ ∀ d ∈ cs, isSpace d)
    (hv : (next c cs).1 ≠ .invalid) (q : List Char) : next c (cs ++ ' ' :: q) = next c cs :=
  next_append_stop stop_blank (fun _ => hc) hv q

/-- Blanks are one token, up to what is no blank. -/
theorem allFrom_blanks {b v : List Char} (hb : b ≠ []) (hs : ∀ c ∈ b, isSpace c)
    (hv : ∀ c ∈ v.head?, ¬ isSpace c) (offset : Nat) :
    allFrom offset 0 (b ++ v) = ⟨.blank, b, offset⟩ :: allFrom (offset + byteSize b) 0 v := by
  cases b with
  | nil => exact absurd rfl hb
  | cons c cs =>
    have stops : v.takeWhile isSpace = [] := by
      cases v with
      | nil => rfl
      | cons d v => exact List.takeWhile_cons_of_neg (hv d rfl)
    have all : (cs ++ v).takeWhile isSpace = cs := by
      rw [List.takeWhile_append_of_pos fun d hd => hs d (List.mem_cons_of_mem c hd), stops,
        List.append_nil]
    have found : next c (cs ++ v) = (.blank, cs.length) := by
      rw [next, if_pos (hs c List.mem_cons_self), all]
    rw [List.cons_append, allFrom_cons, found, List.take_left, List.drop_left]

end Lexeme

open Lexeme

namespace Token

/-- Places make no difference to how words are joined. -/
theorem reading_joinWords {ts us : List Token} (h : reading ts = reading us) {o p : Option Token}
    (ho : reading o.toList = reading p.toList) (gap : List Char) :
    reading (joinWords o gap ts) = reading (joinWords p gap us) := by
  induction ts generalizing us o p gap with
  | nil =>
    cases us with
    | nil => exact ho
    | cons u us => cases h
  | cons t ts ih =>
    cases us with
    | nil => cases h
    | cons u us =>
      obtain ⟨head, h⟩ := List.cons_eq_cons.1 h
      obtain ⟨hk, hx⟩ := Prod.ext_iff.1 head
      dsimp only at hk hx
      by_cases hb : t.kind = .blank
      · rw [joinWords_blank hb, joinWords_blank (hk ▸ hb), hx]
        exact ih h ho _
      by_cases hw : t.kind = .word
      · rw [joinWords_word hw, joinWords_word (hk ▸ hw)]
        refine ih h ?_ []
        cases o <;> cases p <;> simp_all [reading]
      · rw [joinWords_other hb hw, joinWords_other (hk ▸ hb) (hk ▸ hw), reading_append,
          reading_append, reading_cons, reading_cons, ho, hk, hx, ih h rfl []]

/-- Blanks in front of the first word are of no account. -/
theorem joinWords_none (gap : List Char) (ts : List Token) :
    joinWords none gap ts = joinWords none [] ts := by
  induction ts generalizing gap with
  | nil => rfl
  | cons t ts ih =>
    by_cases hb : t.kind = .blank
    · rw [joinWords_blank hb, joinWords_blank hb, ih, ih ([] ++ t.text)]
    by_cases hw : t.kind = .word
    · rw [joinWords_word hw, joinWords_word hw]
      rfl
    · rw [joinWords_other hb hw, joinWords_other hb hw]

def contents (text : List Char) : List (Kind × List Char) :=
  reading (joinWords none [] (lexemes text))

section joined

variable {c : Char} {cs : List Char}

/-- A token that is neither blank nor word ends the phrase before it. -/
theorem reading_joinWords_start (hb : (next c cs).1 ≠ .blank) (hw : (next c cs).1 ≠ .word)
    (open? : Option Token) (gap : List Char) (offset : Nat) :
    reading (joinWords open? gap (allFrom offset 0 (c :: cs))) =
      reading open?.toList ++ contents (c :: cs) := by
  have same := reading_joinWords (reading_allFrom offset 0 (c :: cs)) rfl gap (o := open?)
  rw [same, contents, lexemes, allFrom_cons, joinWords_other hb hw, joinWords_other hb hw,
    reading_append]
  rfl

/-- Blanks, and then what no phrase goes on with. -/
def Closes (rest : List Char) : Prop :=
  ∀ run, (∀ x ∈ run, isSpace x) → ∀ open? gap offset,
    reading (joinWords open? gap (allFrom offset 0 (run ++ rest))) =
      reading open?.toList ++ contents rest

theorem closes_token (hb : (next c cs).1 ≠ .blank) (hw : (next c cs).1 ≠ .word) (hc : ¬ isSpace c) :
    Closes (c :: cs) := by
  intro run hs open? gap offset
  have head : ∀ d ∈ (c :: cs).head?, ¬ isSpace d := by rintro _ ⟨⟩; exact hc
  by_cases empty : run = []
  · subst empty
    exact reading_joinWords_start hb hw open? gap offset
  · rw [allFrom_blanks empty hs head, joinWords_blank rfl, reading_joinWords_start hb hw]

/-- Blanks in front of a text are no part of its contents. -/
theorem contents_of_blanks {b v : List Char} (hs : ∀ d ∈ b, isSpace d)
    (hv : ∀ d ∈ v.head?, ¬ isSpace d) (offset : Nat) :
    reading (joinWords none [] (allFrom offset 0 (b ++ v))) = contents v := by
  by_cases hb : b = []
  · subst hb
    exact reading_joinWords (reading_allFrom offset 0 v) rfl []
  · rw [allFrom_blanks hb hs hv, joinWords_blank rfl, joinWords_none]
    exact reading_joinWords (reading_allFrom _ 0 v) rfl []

theorem contents_blank (q : List Char) (offset : Nat) :
    reading (joinWords none [] (allFrom offset 0 (' ' :: q))) = contents q := by
  have blanks : ∀ d ∈ q.takeWhile isSpace, isSpace d := fun d => List.mem_takeWhile_imp
  have rest : ∀ d ∈ (q.dropWhile isSpace).head?, ¬ isSpace d := by
    intro d hd
    have := List.head?_dropWhile_not isSpace q
    rw [Option.mem_def.1 hd] at this
    simpa using this
  have more : ∀ d ∈ ' ' :: q.takeWhile isSpace, isSpace d :=
    List.forall_mem_cons.2 ⟨by decide, blanks⟩
  have here := contents_of_blanks blanks rest 0
  have there := contents_of_blanks more rest offset
  rw [List.cons_append, List.takeWhile_append_dropWhile] at there
  rw [List.takeWhile_append_dropWhile] at here
  exact there.trans here.symm

theorem contents_space (q : List Char) : contents (' ' :: q) = contents q := contents_blank q 0

theorem Closes.blank {rest : List Char} (h : Closes rest) : Closes (' ' :: rest) := by
  intro run hs open? gap offset
  have longer : ∀ x ∈ run ++ [' '], isSpace x := by
    intro x hx
    rcases List.mem_append.1 hx with hx | hx
    · exact hs x hx
    · cases List.mem_singleton.1 hx
      rfl
  have split : run ++ ' ' :: rest = (run ++ [' ']) ++ rest := by simp
  rw [split, h _ longer, contents_space]

/-- The first part ends where the second starts, if no token of it goes on there. -/
theorem reading_joinWords_append {rest : List Char} (closes : Closes rest)
    (apart : ∀ d ds, (isSpace d → ¬ ∀ x ∈ ds, isSpace x) → (next d ds).1 ≠ .invalid →
      next d (ds ++ rest) = next d ds)
    (text : List Char) (offset : Nat) (valid : ∀ t ∈ allFrom offset 0 text, t.kind ≠ .invalid)
    (open? : Option Token) (gap : List Char) :
    reading (joinWords open? gap (allFrom offset 0 (text ++ rest))) =
      reading (joinWords open? gap (allFrom offset 0 text)) ++ contents rest := by
  induction text using text_induction generalizing offset open? gap with
  | nil => exact closes [] (by simp) open? gap offset
  | cons d ds ih =>
    by_cases blank : ∀ x ∈ d :: ds, isSpace x
    · have alone := allFrom_blanks (v := []) (by simp) blank (by simp) offset
      rw [List.append_nil] at alone
      rw [closes _ blank, alone, joinWords_blank rfl]
      rfl
    · rw [allFrom_cons] at valid
      have same : next d (ds ++ rest) = next d ds :=
        apart d ds (fun space all => blank (List.forall_mem_cons.2 ⟨space, all⟩))
          (valid _ List.mem_cons_self)
      have le := next_le d ds
      have later := ih _ fun t ht => valid t (List.mem_cons_of_mem _ ht)
      rw [List.cons_append, allFrom_cons, allFrom_cons, same, List.take_append_of_le_length le,
        List.drop_append_of_le_length le]
      by_cases hb : (next d ds).1 = .blank
      · rw [joinWords_blank hb, joinWords_blank hb, later]
      by_cases hw : (next d ds).1 = .word
      · rw [joinWords_word hw, joinWords_word hw, later]
      · rw [joinWords_other hb hw, joinWords_other hb hw, reading_append, reading_append,
          reading_cons, reading_cons, later]
        simp

/-- Two texts with a token between them. -/
theorem contents_joined {k : Kind} (hn : next c cs = (k, cs.length))
    (hk : k ≠ .blank ∧ k ≠ .word ∧ k ≠ .invalid) (hc : ¬ isSpace c) {text : List Char}
    (valid : ∀ t ∈ lexemes text, t.kind ≠ .invalid) (q : List Char) :
    contents (text ++ ' ' :: (c :: cs ++ ' ' :: q)) =
      contents text ++ (k, c :: cs) :: contents q := by
  have same : next c (cs ++ ' ' :: q) = (k, cs.length) := by
    rw [next_append_blank (fun space => absurd space hc) (by rw [hn]; exact hk.2.2), hn]
  have token : contents (c :: (cs ++ ' ' :: q)) = (k, c :: cs) :: contents q := by
    rw [contents, lexemes, allFrom_cons, same, List.take_left, List.drop_left,
      joinWords_other hk.1 hk.2.1, Option.toList_none, List.nil_append, reading_cons,
      contents_blank]
  have blank : (next c (cs ++ ' ' :: q)).1 ≠ .blank := by rw [same]; exact hk.1
  have word : (next c (cs ++ ' ' :: q)).1 ≠ .word := by rw [same]; exact hk.2.1
  rw [List.cons_append, contents, lexemes, reading_joinWords_append (closes_token blank word hc).blank
    (fun _ _ spaces valid => next_append_blank spaces valid _) text 0 valid, contents_space,
    token]
  rfl

end joined

end Token

namespace Lexeme

theorem quote_not_mem_spelling : ∀ s ∈ spellings, '"' ∉ s.1 := by decide +kernel

/-- A token that goes on as long as `p` allows has only the characters that `p` allows. -/
theorem not_mem_run {p : Char → Bool} {x c : Char} {cs : List Char} (hx : p x = false)
    (hc : x ≠ c) : x ∉ c :: cs.take (cs.takeWhile p).length := by
  have run : cs.take (cs.takeWhile p).length = cs.takeWhile p :=
    (List.prefix_iff_eq_take.1 (List.takeWhile_prefix p)).symm
  rw [run]
  refine List.not_mem_cons_of_ne_of_not_mem hc fun hm => ?_
  rw [List.mem_takeWhile_imp hm] at hx
  cases hx

/-- A string is cut behind the quote that ends it. -/
theorem take_string {cs : List Char} (h : (cs.takeWhile (· ≠ '"')).length < cs.length) :
    ∃ body, '"' ∉ body ∧ cs.take ((cs.takeWhile (· ≠ '"')).length + 1) = body ++ ['"'] := by
  have split := List.takeWhile_append_dropWhile (p := (· ≠ '"')) (l := cs)
  have clean : '"' ∉ cs.takeWhile (· ≠ '"') := fun hm => by simpa using List.mem_takeWhile_imp hm
  have stop := List.head?_dropWhile_not (· ≠ '"') cs
  cases hd : cs.dropWhile (· ≠ '"') with
  | nil =>
    rw [hd, List.append_nil] at split
    exact absurd (congrArg List.length split) (Nat.ne_of_lt h)
  | cons d rest =>
    rw [hd] at split stop
    obtain rfl : d = '"' := by simpa using stop
    generalize cs.takeWhile (· ≠ '"') = body at split clean
    subst split
    refine ⟨body, clean, ?_⟩
    rw [List.take_append, List.take_of_length_le (Nat.le_succ _)]
    simp

/-- A finished token is a string between two quotes, or it has none. -/
theorem next_quotes {c : Char} {cs : List Char} (h : (next c cs).1 ≠ .invalid) :
    (next c cs).1 = .string ∧
        (∃ body, '"' ∉ body ∧ c :: cs.take (next c cs).2 = '"' :: (body ++ ['"'])) ∨
      (next c cs).1 ≠ .string ∧ '"' ∉ c :: cs.take (next c cs).2 := by
  unfold next at h ⊢
  by_cases quote : c = '"'
  · subst quote
    simp only [show isSpace '"' = false from rfl, show isLetter '"' = false from rfl,
      show isDigit '"' = false from rfl, Bool.false_eq_true, if_false, if_true] at h ⊢
    split at h
    · rename_i hlt
      obtain ⟨body, clean, taken⟩ := take_string hlt
      rw [if_pos hlt]
      exact .inl ⟨rfl, body, clean, by rw [taken]⟩
    · exact absurd rfl h
  · have hc : '"' ≠ c := Ne.symm quote
    refine .inr ?_
    rw [if_neg quote]
    split
    · exact ⟨nofun, not_mem_run (by decide) hc⟩
    split
    · exact ⟨nofun, not_mem_run (by decide) hc⟩
    split
    · exact ⟨nofun, not_mem_run (by decide) hc⟩
    split
    · rename_i k n hs
      have kinds : ∀ s ∈ spellings, s.2 ≠ .string := by decide +kernel
      obtain ⟨⟨spelling, k⟩, hm, rfl, rfl, hp⟩ := longestSpelling?_mem hs
      refine ⟨kinds _ hm, List.not_mem_cons_of_ne_of_not_mem hc ?_⟩
      cases spelling with
      | nil => simp
      | cons d ds =>
        obtain ⟨-, ht⟩ := List.cons_prefix_cons.1 hp
        rw [show (d :: ds).length - 1 = ds.length from rfl, ← List.prefix_iff_eq_take.1 ht]
        exact fun hq => quote_not_mem_spelling _ hm (List.mem_cons_of_mem d hq)
    · exact ⟨nofun, by simpa using hc⟩

theorem quoteOpen_next {c : Char} {cs : List Char} (h : (next c cs).1 ≠ .invalid) :
    quoteOpen false (c :: cs.take (next c cs).2) = false := by
  rcases next_quotes h with ⟨-, body, clean, text⟩ | ⟨-, clean⟩
  · have opened : quoteOpen false ('"' :: (body ++ ['"'])) = quoteOpen true (body ++ ['"']) := rfl
    rw [text, opened, quoteOpen_append, quoteOpen_of_not_mem clean]
    rfl
  · exact quoteOpen_of_not_mem clean false

theorem quoteOpen_of_valid {text : List Char} {offset : Nat}
    (valid : ∀ t ∈ allFrom offset 0 text, t.kind ≠ .invalid) : quoteOpen false text = false := by
  induction text using text_induction generalizing offset with
  | nil => rfl
  | cons c cs ih =>
    rw [allFrom_cons] at valid
    rw [← List.take_append_drop (next c cs).2 cs, ← List.cons_append, quoteOpen_append,
      quoteOpen_next (valid _ List.mem_cons_self)]
    exact ih fun t ht => valid t (List.mem_cons_of_mem _ ht)

end Lexeme

end InventoryQuery
