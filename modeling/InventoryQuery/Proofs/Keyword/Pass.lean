import Mathlib.Data.List.Infix
import Mathlib.Data.List.TakeWhile
import InventoryQuery.Keyword.Rewriting
import InventoryQuery.Proofs.Text.Cutting

/-! A pass of rewriting. At every place it copies the next character or takes a phrase of the text, so
what a pass does to a text is shown by induction over these two steps. -/

namespace InventoryQuery

/-- Whether a text ends with a boundary, where `fresh` says so of the text before it. -/
def freshAfter (fresh : Bool) (cs : List Char) : Bool := cs.foldl (fun _ c => isBoundary c) fresh

theorem freshAfter_append (fresh : Bool) (cs ds : List Char) :
    freshAfter fresh (cs ++ ds) = freshAfter (freshAfter fresh cs) ds :=
  List.foldl_append

namespace Rewrite

/-- The words of a phrase are cut at blanks, and neither they nor what replaces them have quotes. -/
def Plain (r : Rewrite) : Prop :=
  r.words ≠ [] ∧ (∀ w ∈ r.words, w ≠ [] ∧ ' ' ∉ w ∧ '"' ∉ w) ∧ '"' ∉ r.output

instance (r : Rewrite) : Decidable r.Plain := inferInstanceAs (Decidable (_ ∧ _ ∧ _))

theorem plain_dropArticles : ∀ r ∈ dropArticles, r.Plain := by decide

theorem plain_writeKeywords : ∀ r ∈ writeKeywords, r.Plain := by decide +kernel

theorem reach?_of_head {w : List Char} {ws : List (List Char)} {cs : List Char}
    (h : w.isPrefixOf? cs = none) : reach? (w :: ws) cs = none := by
  cases ws <;> simp [reach?, h]

theorem drop_takeWhile {α : Type} (p : α → Bool) (xs : List α) :
    xs.drop (xs.takeWhile p).length = xs.dropWhile p := by
  induction xs with
  | nil => rfl
  | cons x xs ih => cases h : p x <;> simp [h, ih]

theorem reach?_cons_cons (w v : List Char) (ws : List (List Char)) (cs : List Char) :
    reach? (w :: v :: ws) cs = (w.isPrefixOf? cs).bind fun rest =>
      if rest.takeWhile isBlank = [] then none
      else (reach? (v :: ws) (rest.dropWhile isBlank)).map
        (w.length + (rest.takeWhile isBlank).length + ·) := by
  rw [reach?.eq_def]
  simp only [List.length_eq_zero_iff, drop_takeWhile, Option.bind_eq_bind]
  refine congrArg _ (funext fun rest => ?_)
  split
  · rfl
  · cases reach? (v :: ws) (rest.dropWhile isBlank) <;> rfl

/-- What a phrase takes of the text are the characters of its words, and blanks. -/
theorem reach?_eq_some {ws : List (List Char)} (hp : ∀ w ∈ ws, w ≠ []) {cs : List Char} {n : Nat}
    (h : reach? ws cs = some n) :
    ∃ m rest, cs = m ++ rest ∧ m.length = n ∧ (∀ c ∈ m, isBlank c ∨ ∃ w ∈ ws, c ∈ w) ∧
      (ws ≠ [] → m ≠ []) := by
  induction ws generalizing cs n with
  | nil => exact ⟨[], cs, rfl, by simpa [reach?] using h, by simp, by simp⟩
  | cons w ws ih =>
    have hne := hp w List.mem_cons_self
    cases ws with
    | nil =>
      simp only [reach?, Option.bind_eq_bind, Option.bind_eq_some_iff] at h
      obtain ⟨rest, hm, h⟩ := h
      split at h
      · cases h
        exact ⟨w, rest, (List.append_eq_of_isPrefixOf?_eq_some hm).symm, rfl,
          fun c hc => .inr ⟨w, List.mem_cons_self, hc⟩, fun _ => hne⟩
      · cases h
    | cons v ws =>
      rw [reach?_cons_cons, Option.bind_eq_some_iff] at h
      obtain ⟨rest, hm, h⟩ := h
      split at h
      · cases h
      obtain ⟨k, hk, rfl⟩ := Option.map_eq_some_iff.1 h
      obtain ⟨m, tail, hs, rfl, chars, -⟩ := ih (fun x hx => hp x (List.mem_cons_of_mem w hx)) hk
      refine ⟨w ++ (rest.takeWhile isBlank ++ m), tail, ?_,
        by simp [Nat.add_assoc], fun c hc => ?_, by simp [hne]⟩
      · rw [← List.append_eq_of_isPrefixOf?_eq_some hm]
        conv_lhs => rw [← List.takeWhile_append_dropWhile (p := isBlank) (l := rest), hs]
        simp
      · simp only [List.mem_append] at hc
        rcases hc with hc | hc | hc
        · exact .inr ⟨w, List.mem_cons_self, hc⟩
        · exact .inl (List.mem_takeWhile_imp hc)
        · exact (chars c hc).imp_right fun ⟨x, hx, hc⟩ => ⟨x, List.mem_cons_of_mem w hx, hc⟩

theorem foldl_longer_mem {cs : List Char} {rules : List Rewrite} {best : Option (Rewrite × Nat)}
    {r : Rewrite} {n : Nat} (h : rules.foldl (longer cs) best = some (r, n)) :
    best = some (r, n) ∨ r ∈ rules ∧ reach? r.words cs = some n := by
  induction rules generalizing best with
  | nil => exact .inl h
  | cons r' rules ih =>
    rcases ih h with hb | ⟨hr, hn⟩
    · unfold longer at hb
      split at hb
      · exact .inl hb
      · split at hb
        · cases hb
          exact .inr ⟨List.mem_cons_self, ‹_›⟩
        · exact .inl hb
    · exact .inr ⟨List.mem_cons_of_mem _ hr, hn⟩

theorem longest?_mem {rules : List Rewrite} {cs : List Char} {r : Rewrite} {n : Nat}
    (h : longest? rules cs = some (r, n)) : r ∈ rules ∧ reach? r.words cs = some n :=
  (foldl_longer_mem h).resolve_left (by simp)

theorem longest?_congr {rules : List Rewrite} {cs ds : List Char}
    (h : ∀ r ∈ rules, reach? r.words cs = reach? r.words ds) :
    longest? rules cs = longest? rules ds :=
  List.foldl_ext _ _ none fun best r hr => by rw [longer, longer, h r hr]

theorem longer_eq_none {cs : List Char} {best : Option (Rewrite × Nat)} {r : Rewrite} :
    longer cs best r = none ↔ best = none ∧ reach? r.words cs = none := by
  rw [longer]
  cases reach? r.words cs with
  | none => simp
  | some n => cases best <;> simp; split <;> simp

theorem longest?_eq_none_iff {rules : List Rewrite} {cs : List Char} :
    longest? rules cs = none ↔ ∀ r ∈ rules, reach? r.words cs = none := by
  have fold (rs : List Rewrite) (best : Option (Rewrite × Nat)) :
      rs.foldl (longer cs) best = none ↔ best = none ∧ ∀ r ∈ rs, reach? r.words cs = none := by
    induction rs generalizing best with
    | nil => simp
    | cons r rs ih => rw [List.foldl_cons, ih, longer_eq_none, List.forall_mem_cons, and_assoc]
  exact (fold rules none).trans (and_iff_right rfl)

/-- A phrase starts with a character of its words. -/
theorem Plain.reach?_of_not_mem {r : Rewrite} (plain : r.Plain) {c : Char} (h : ∀ w ∈ r.words, c ∉ w)
    (q : List Char) : reach? r.words (c :: q) = none := by
  obtain ⟨ne, words, -⟩ := plain
  cases hw : r.words with
  | nil => exact absurd hw ne
  | cons w ws =>
    have mem : w ∈ r.words := by rw [hw]; exact List.mem_cons_self
    refine reach?_of_head ?_
    cases w with
    | nil => exact absurd rfl (words _ mem).1
    | cons a w =>
      have differ : a ≠ c := by
        rintro rfl
        exact h _ mem List.mem_cons_self
      simp [List.isPrefixOf?, differ]

/-- No phrase is taken where the pass is in a string or within a word. -/
def Copies (rules : List Rewrite) (inString fresh : Bool) (cs : List Char) : Prop :=
  inString = false → fresh = true → longest? rules cs = none

/-- The phrase that is taken at the start of a text, and what comes after it. -/
structure Takes (rules : List Rewrite) (r : Rewrite) (w rest : List Char) : Prop where
  mem : r ∈ rules
  filled : w ≠ []
  chars : ∀ c ∈ w, isBlank c ∨ ∃ v ∈ r.words, c ∈ v
  found : longest? rules (w ++ rest) = some (r, w.length)

section step

variable {rules : List Rewrite} {inString fresh : Bool} {c : Char} {cs : List Char}

theorem Copies.none (h : Copies rules inString fresh cs) :
    (if !inString && fresh then longest? rules cs else none) = none := by
  cases inString <;> cases fresh <;> first | rfl | exact h rfl rfl

theorem applyFrom_copied (h : Copies rules inString fresh (c :: cs)) :
    applyFrom rules 0 inString fresh (c :: cs) =
      c :: applyFrom rules 0 (inString ^^ (c == '"')) (isBoundary c) cs := by
  rw [applyFrom, h.none]

/-- What has been taken is passed over. -/
theorem applyFrom_skipped (w rest : List Char) (inString fresh : Bool) :
    applyFrom rules w.length inString fresh (w ++ rest) =
      applyFrom rules 0 inString (freshAfter fresh w) rest := by
  induction w generalizing fresh with
  | nil => rfl
  | cons c w ih => exact ih (isBoundary c)

theorem copies_within : Copies rules inString false cs := fun _ => nofun

theorem copies_string : Copies rules true fresh cs := nofun

/-- In a string everything is copied, up to the quote that may end it. -/
theorem applyFrom_quoted {body : List Char} (hb : '"' ∉ body) (fresh : Bool) (rest : List Char) :
    applyFrom rules 0 true fresh (body ++ rest) = body ++ applyFrom rules 0 true (freshAfter fresh body) rest := by
  induction body generalizing fresh with
  | nil => rfl
  | cons c body ih =>
    obtain ⟨quote, others⟩ := not_or.1 (mt List.mem_cons.2 hb)
    rw [List.cons_append, applyFrom_copied copies_string, beq_eq_false_iff_ne.2 (Ne.symm quote), Bool.xor_false,
      ih others]
    rfl

end step

namespace Takes

variable {rules : List Rewrite} {r : Rewrite} {w rest : List Char}

theorem of_longest? (hp : ∀ r ∈ rules, r.Plain) {cs : List Char} {n : Nat}
    (h : longest? rules cs = some (r, n)) : ∃ w rest, cs = w ++ rest ∧ n = w.length ∧ Takes rules r w rest := by
  obtain ⟨mem, reached⟩ := longest?_mem h
  obtain ⟨w, rest, rfl, rfl, chars, filled⟩ := reach?_eq_some (fun v hv => ((hp r mem).2.1 v hv).1) reached
  exact ⟨w, rest, rfl, rfl, mem, filled (hp r mem).1, chars, h⟩

theorem unquoted (hp : ∀ r ∈ rules, r.Plain) (h : Takes rules r w rest) : '"' ∉ w := by
  intro quote
  rcases h.chars _ quote with blank | ⟨v, hv, inWord⟩
  · exact absurd blank (by decide)
  · exact ((hp r h.mem).2.1 v hv).2.2 inWord

theorem applyFrom_eq (h : Takes rules r w rest) : applyFrom rules 0 false true (w ++ rest) =
    r.output ++ applyFrom rules 0 false (freshAfter true w) rest := by
  have found := h.found
  cases w with
  | nil => exact absurd rfl h.filled
  | cons c w =>
    have skipped : applyFrom rules 0 false true (c :: (w ++ rest)) =
        r.output ++ applyFrom rules w.length false (isBoundary c) (w ++ rest) := by
      rw [List.cons_append] at found
      rw [applyFrom]
      simp only [Bool.not_false, Bool.and_self, if_true, found]
      rfl
    rw [List.cons_append, skipped, applyFrom_skipped]
    rfl

end Takes

section pass

variable {rules : List Rewrite} (hp : ∀ r ∈ rules, r.Plain)

include hp

theorem exists_takes {inString fresh : Bool} {cs : List Char} (h : ¬ Copies rules inString fresh cs) :
    inString = false ∧ fresh = true ∧ ∃ r w rest, cs = w ++ rest ∧ Takes rules r w rest := by
  unfold Copies at h
  push Not at h
  obtain ⟨outside, boundary, taken⟩ := h
  obtain ⟨⟨r, n⟩, found⟩ := Option.ne_none_iff_exists'.1 taken
  obtain ⟨w, rest, split, -, taken⟩ := Takes.of_longest? hp found
  exact ⟨outside, boundary, r, w, rest, split, taken⟩

/-- A pass copies a character, or it takes a phrase at the start of a word and goes on behind it. -/
theorem pass_induction {motive : (inString fresh : Bool) → List Char → Prop}
    (nil : ∀ inString fresh, motive inString fresh [])
    (copied : ∀ inString fresh c cs, Copies rules inString fresh (c :: cs) →
      motive (inString ^^ (c == '"')) (isBoundary c) cs → motive inString fresh (c :: cs))
    (replaced : ∀ r w rest, Takes rules r w rest → (∀ fresh, motive false fresh rest) →
      motive false true (w ++ rest))
    (inString fresh : Bool) (cs : List Char) : motive inString fresh cs := by
  induction hl : cs.length using Nat.strongRecOn generalizing cs inString fresh with
  | ind l ih =>
    cases cs with
    | nil => exact nil inString fresh
    | cons c cs =>
      by_cases h : Copies rules inString fresh (c :: cs)
      · exact copied _ _ c cs h (ih cs.length (by simp [← hl]) _ _ cs rfl)
      · obtain ⟨rfl, rfl, r, w, rest, split, taken⟩ := exists_takes hp h
        rw [split] at hl ⊢
        have shorter : rest.length < l := by
          have := List.length_pos_iff.2 taken.filled
          rw [← hl, List.length_append]
          omega
        exact replaced r w rest taken fun fresh => ih _ shorter false fresh rest rfl

/-- The rules neither drop nor write quotes. -/
theorem quoteOpen_applyFrom (inString fresh : Bool) (cs : List Char) (b : Bool) :
    quoteOpen b (applyFrom rules 0 inString fresh cs) = quoteOpen b cs := by
  induction inString, fresh, cs using pass_induction hp generalizing b with
  | nil => rfl
  | copied inString fresh c cs copies ih =>
    rw [applyFrom_copied copies]
    exact ih _
  | replaced r w rest taken ih =>
    rw [taken.applyFrom_eq, quoteOpen_append, quoteOpen_append, quoteOpen_of_not_mem (hp r taken.mem).2.2,
      quoteOpen_of_not_mem (taken.unquoted hp), ih]

end pass

end Rewrite

open Rewrite

theorem quoteOpen_rewriteKeywords (b : Bool) (text : List Char) :
    quoteOpen b (rewriteKeywords text) = quoteOpen b text := by
  rw [rewriteKeywords, applyAll, applyAll,
    quoteOpen_applyFrom plain_writeKeywords, quoteOpen_applyFrom plain_dropArticles]

end InventoryQuery
