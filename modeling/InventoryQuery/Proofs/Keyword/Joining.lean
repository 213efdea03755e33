import InventoryQuery.Proofs.Keyword.Pass

/-! Rewriting a text that is put together from others with a word between them. Where the first part
has its quotes closed and no reserved phrase goes on with the word in the middle or begins with it,
each part is rewritten by itself. -/

namespace InventoryQuery

namespace Rewrite

/-- A phrase is found in front of the blank exactly if it is found without what follows, unless it
goes on there. -/
theorem reach?_append_blank {ws : List (List Char)} (hne : ws ≠ [])
    (hp : ∀ w ∈ ws, w ≠ [] ∧ ' ' ∉ w) {q : List Char}
    (hq : ∀ w vs, w :: vs <:+ ws.tail → reach? (w :: vs) (q.dropWhile isBlank) = none)
    (cs : List Char) : reach? ws (cs ++ ' ' :: q) = reach? ws cs := by
  induction ws generalizing cs with
  | nil => exact absurd rfl hne
  | cons w ws ih =>
    have hw := (hp w List.mem_cons_self).2
    cases hm : w.isPrefixOf? cs with
    | none => rw [reach?_of_head hm, reach?_of_head (by rw [isPrefixOf?_append_of_not_mem hw, hm]; rfl)]
    | some rest =>
      have hm' := isPrefixOf?_append_of_not_mem hw cs q
      rw [hm] at hm'
      cases ws with
      | nil =>
        have boundary : (rest ++ ' ' :: q).head?.all isBoundary = rest.head?.all isBoundary := by
          cases rest with
          | nil => rfl
          | cons c rest => rfl
        simp only [reach?, hm, hm', Option.map_some, boundary, Option.bind_eq_bind,
          Option.bind_some]
      | cons v ws =>
        have hv := (hp v (by simp)).1
        rw [reach?_cons_cons, reach?_cons_cons, hm, hm', Option.map_some, Option.bind_some,
          Option.bind_some]
        by_cases blank : rest.dropWhile isBlank = []
        · -- only blanks are left in front, so the next word would have to be in `q`
          have beyond : (rest ++ ' ' :: q).dropWhile isBlank = q.dropWhile isBlank := by
            rw [List.dropWhile_append, if_pos (by simp [blank])]
            rfl
          have nothing : v.isPrefixOf? ([] : List Char) = none := by
            cases v with
            | nil => exact absurd rfl hv
            | cons a v => rfl
          rw [blank, beyond, hq v ws (List.suffix_refl _), reach?_of_head nothing]
          simp
        · have later := ih (by simp) (fun x hx => hp x (List.mem_cons_of_mem w hx))
            (fun x vs hx => hq x vs (hx.trans (List.suffix_cons v ws)))
            (rest.dropWhile isBlank)
          have tail : (rest ++ ' ' :: q).dropWhile isBlank =
              rest.dropWhile isBlank ++ ' ' :: q := by
            rw [List.dropWhile_append, if_neg (by simpa using blank)]
          have gap : (rest ++ ' ' :: q).takeWhile isBlank = rest.takeWhile isBlank := by
            rw [List.takeWhile_append, if_neg]
            intro hl
            have := congrArg List.length (List.takeWhile_append_dropWhile (p := isBlank)
              (l := rest))
            rw [List.length_append, hl] at this
            exact blank (List.eq_nil_of_length_eq_zero (by omega))
          rw [gap, tail, later]

section append

variable {rules : List Rewrite} (hp : ∀ r ∈ rules, r.Plain)

include hp

/-- Where no phrase goes on, or is kept from ending, the text that follows is rewritten by itself, in a
string or not as the text before it says. -/
theorem applyFrom_append_of_same {rest : List Char} (inString fresh : Bool) (cs : List Char)
    (hm : ∀ r ∈ rules, ∀ s, s <:+ cs → s ≠ [] → reach? r.words (s ++ rest) = reach? r.words s) :
    applyFrom rules 0 inString fresh (cs ++ rest) =
      applyFrom rules 0 inString fresh cs ++
        applyFrom rules 0 (quoteOpen inString cs) (freshAfter fresh cs) rest := by
  have found (s : List Char) (hs : s <:+ cs) (filled : s ≠ []) : longest? rules (s ++ rest) = longest? rules s :=
    longest?_congr fun r hr => hm r hr s hs filled
  clear hm
  induction inString, fresh, cs using pass_induction hp with
  | nil => rfl
  | copied inString fresh c cs copies ih =>
    have copies' : Copies rules inString fresh (c :: (cs ++ rest)) := fun outside boundary =>
      (found _ (List.suffix_refl _) (by simp)).trans (copies outside boundary)
    rw [List.cons_append, applyFrom_copied copies', applyFrom_copied copies,
      ih fun s hs => found s (hs.trans (List.suffix_cons c cs))]
    rfl
  | replaced r w tail taken ih =>
    have taken' : Takes rules r w (tail ++ rest) := by
      refine ⟨taken.mem, taken.filled, taken.chars, ?_⟩
      rw [← List.append_assoc, found _ (List.suffix_refl _) (by simp [taken.filled]), taken.found]
    rw [List.append_assoc, taken'.applyFrom_eq, taken.applyFrom_eq, List.append_assoc, quoteOpen_append,
      quoteOpen_of_not_mem (taken.unquoted hp), freshAfter_append,
      ih _ fun s hs => found s (hs.trans (List.suffix_append w tail))]

/-- No phrase starts with a blank. -/
theorem applyFrom_blank (inString fresh : Bool) (q : List Char) :
    applyFrom rules 0 inString fresh (' ' :: q) = ' ' :: applyFrom rules 0 inString true q := by
  have nothing : longest? rules (' ' :: q) = none := longest?_eq_none_iff.2 fun r hr =>
    (hp r hr).reach?_of_not_mem (fun w hw => ((hp r hr).2.1 w hw).2.1) q
  rw [applyFrom_copied fun _ _ => nothing]
  simp only [show (' ' == '"') = false from rfl, Bool.xor_false]
  rfl

/-- The text behind the blank is rewritten by itself, in a string or not as the text before it
says. -/
theorem applyFrom_append_blank {q : List Char} (inString fresh : Bool) (cs : List Char)
    (hm : ∀ r ∈ rules, ∀ s, s <:+ cs → reach? r.words (s ++ ' ' :: q) = reach? r.words s) :
    applyFrom rules 0 inString fresh (cs ++ ' ' :: q) =
      applyFrom rules 0 inString fresh cs ++ ' ' ::
        applyFrom rules 0 (quoteOpen inString cs) true q := by
  rw [applyFrom_append_of_same hp inString fresh cs fun r hr s hs _ => hm r hr s hs, applyFrom_blank hp]

end append

/-- No phrase goes on with the word or starts with it, unless the word is all of it. -/
def Apart (rules : List Rewrite) (word : List Char) : Prop :=
  word.head?.all (!isBlank ·) ∧ ∀ r ∈ rules, (∀ w ∈ r.words.tail, w.isPrefixOf? word = none) ∧
    ∀ s ∈ word.tails, r.words.tail = [] ∨ r.words.head?.all fun w => (w.isPrefixOf? s).isNone

instance (rules : List Rewrite) (word : List Char) : Decidable (Apart rules word) :=
  inferInstanceAs (Decidable (_ ∧ _))

theorem applyAll_joined {rules : List Rewrite} (hp : ∀ r ∈ rules, r.Plain) {word : List Char}
    (ha : Apart rules word) (hw : word ≠ []) (hq : '"' ∉ word) {p : List Char}
    (closed : quoteOpen false p = false) (q : List Char) :
    applyAll rules (p ++ ' ' :: (word ++ ' ' :: q)) =
      applyAll rules p ++ ' ' :: (applyAll rules word ++ ' ' :: applyAll rules q) := by
  have words (r : Rewrite) (hr : r ∈ rules) : ∀ w ∈ r.words, w ≠ [] ∧ ' ' ∉ w := fun w hm =>
    ⟨((hp r hr).2.1 w hm).1, ((hp r hr).2.1 w hm).2.1⟩
  have before : ∀ r ∈ rules, ∀ s, s <:+ p →
      reach? r.words (s ++ ' ' :: (word ++ ' ' :: q)) = reach? r.words s := by
    intro r hr s _
    refine reach?_append_blank (hp r hr).1 (words r hr) (fun w vs hv => ?_) s
    have hm : w ∈ r.words.tail := hv.subset List.mem_cons_self
    have start : (word ++ ' ' :: q).dropWhile isBlank = word ++ ' ' :: q := by
      cases word with
      | nil => exact absurd rfl hw
      | cons c word => rw [List.cons_append, List.dropWhile_cons, if_neg (by simpa using ha.1)]
    rw [start, reach?_of_head]
    rw [isPrefixOf?_append_of_not_mem (words r hr w (List.mem_of_mem_tail hm)).2, (ha.2 r hr).1 w hm]
    rfl
  have after : ∀ r ∈ rules, ∀ s, s <:+ word →
      reach? r.words (s ++ ' ' :: q) = reach? r.words s := by
    intro r hr s hs
    rcases (ha.2 r hr).2 s ((List.mem_tails _ _).2 hs) with single | other
    · exact reach?_append_blank (hp r hr).1 (words r hr) (by rw [single]; simp) s
    · cases hws : r.words with
      | nil => exact absurd hws (hp r hr).1
      | cons w ws =>
        rw [hws] at other
        have apart : w.isPrefixOf? s = none := by simpa using other
        have blank := (words r hr w (by rw [hws]; exact List.mem_cons_self)).2
        rw [reach?_of_head apart, reach?_of_head (by rw [isPrefixOf?_append_of_not_mem blank, apart]; rfl)]
  rw [applyAll, applyFrom_append_blank hp false true p before, closed,
    applyFrom_append_blank hp false true word after, quoteOpen_of_not_mem hq]
  rfl

end Rewrite

open Rewrite

theorem rewriteKeywords_between {word : List Char} (hne : word ≠ []) (hq : '"' ∉ word)
    (articles : Apart dropArticles word) (keywords : Apart writeKeywords word)
    (same : applyAll dropArticles word = word) {p : List Char} (closed : quoteOpen false p = false)
    (q : List Char) :
    rewriteKeywords (p ++ ' ' :: (word ++ ' ' :: q)) =
      rewriteKeywords p ++ ' ' :: (rewriteKeywords word ++ ' ' :: rewriteKeywords q) := by
  have closed' : quoteOpen false (applyAll dropArticles p) = false := by
    rw [applyAll, quoteOpen_applyFrom plain_dropArticles, closed]
  unfold rewriteKeywords
  rw [applyAll_joined plain_dropArticles articles hne hq closed, same,
    applyAll_joined plain_writeKeywords keywords hne hq closed']

/-- What stands between the parts of a chain of properties. -/
inductive Joint where
  | of
  | arrow

def Joint.word : Joint → List Char
  | of => "of".toList
  | arrow => "->".toList

theorem rewriteKeywords_joined (j : Joint) {p : List Char} (closed : quoteOpen false p = false)
    (q : List Char) :
    rewriteKeywords (p ++ ' ' :: (j.word ++ ' ' :: q)) =
      rewriteKeywords p ++ ' ' :: (rewriteKeywords j.word ++ ' ' :: rewriteKeywords q) := by
  have facts : j.word ≠ [] ∧ '"' ∉ j.word ∧ Apart dropArticles j.word ∧ Apart writeKeywords j.word ∧
      applyAll dropArticles j.word = j.word := by
    cases j <;> decide +kernel
  obtain ⟨hne, hq, articles, keywords, same⟩ := facts
  exact rewriteKeywords_between hne hq articles keywords same closed q

/-- The word in front of a filter. -/
theorem rewriteKeywords_whose {p : List Char} (closed : quoteOpen false p = false) (q : List Char) :
    rewriteKeywords (p ++ ' ' :: ("whose".toList ++ ' ' :: q)) =
      rewriteKeywords p ++ ' ' :: ("$whose".toList ++ ' ' :: rewriteKeywords q) := by
  have facts : Apart dropArticles "whose".toList ∧ Apart writeKeywords "whose".toList ∧
      applyAll dropArticles "whose".toList = "whose".toList ∧
      rewriteKeywords "whose".toList = "$whose".toList := by
    decide +kernel
  obtain ⟨articles, keywords, same, written⟩ := facts
  rw [rewriteKeywords_between (by decide) (by decide) articles keywords same closed, written]

end InventoryQuery
