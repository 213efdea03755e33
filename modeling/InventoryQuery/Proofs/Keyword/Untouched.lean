import InventoryQuery.Proofs.Keyword.Steps

/-! Texts in which a pass finds nothing to do. Dropping an article leaves a boundary where it was, so
no article is put together by dropping others. A reserved phrase is written as one word that no phrase
starts with, and what is copied around it was there before. So a text that has been rewritten stays as
it is when it is rewritten again. -/

namespace InventoryQuery

namespace Rewrite

/-- None of the phrases is found where a pass would look for one. -/
def Untouched (rules : List Rewrite) : (inString fresh : Bool) → List Char → Prop
  | _, _, [] => True
  | inString, fresh, c :: cs =>
    (inString = false → fresh = true → ∀ r ∈ rules, reach? r.words (c :: cs) = none) ∧
      Untouched rules (inString ^^ (c == '"')) (isBoundary c) cs

namespace Untouched

variable {rules others : List Rewrite} {inString fresh : Bool} {c : Char} {cs w rest : List Char}

theorem copies (h : Untouched rules inString fresh (c :: cs)) : Copies rules inString fresh (c :: cs) :=
  fun outside boundary => longest?_eq_none_iff.2 (h.1 outside boundary)

theorem applyFrom_eq (h : Untouched rules inString fresh cs) :
    applyFrom rules 0 inString fresh cs = cs := by
  induction cs generalizing inString fresh with
  | nil => rfl
  | cons c cs ih => rw [applyFrom_copied h.copies, ih h.2]

theorem applyAll_eq (h : Untouched rules false true cs) : applyAll rules cs = cs := h.applyFrom_eq

theorem of_append_left (h : Untouched (rules ++ others) inString fresh cs) :
    Untouched rules inString fresh cs := by
  induction cs generalizing inString fresh with
  | nil => trivial
  | cons c cs ih =>
    exact ⟨fun outside boundary r hr => h.1 outside boundary r (List.mem_append_left _ hr), ih h.2⟩

theorem of_append_right (h : Untouched (rules ++ others) inString fresh cs) :
    Untouched others inString fresh cs := by
  induction cs generalizing inString fresh with
  | nil => trivial
  | cons c cs ih =>
    exact ⟨fun outside boundary r hr => h.1 outside boundary r (List.mem_append_right _ hr), ih h.2⟩

/-- Within a word there is less to look for. -/
theorem within (h : Untouched rules inString fresh cs) : Untouched rules inString false cs := by
  cases cs with
  | nil => trivial
  | cons c cs => exact ⟨fun _ => nofun, h.2⟩

theorem behind (h : Untouched rules inString fresh (w ++ rest)) :
    Untouched rules (quoteOpen inString w) (freshAfter fresh w) rest := by
  induction w generalizing inString fresh with
  | nil => exact h
  | cons c w ih => exact ih h.2

theorem word (hw : ∀ c ∈ w, Inner c) (h : Untouched rules false false rest) :
    Untouched rules false false (w ++ rest) := by
  induction w with
  | nil => exact h
  | cons c w ih =>
    obtain ⟨⟨boundary, quote⟩, others⟩ := List.forall_mem_cons.1 hw
    refine ⟨fun _ => nofun, ?_⟩
    rw [boundary, beq_eq_false_iff_ne.2 quote]
    exact ih others

/-- Where a boundary comes next nothing is found, whatever was before. -/
theorem stop (hp : ∀ r ∈ rules, r.Plain) (hs : ∀ r ∈ rules, r.Solid)
    (hr : rest.head?.all isBoundary) (h : Untouched rules false false rest) (fresh : Bool) :
    Untouched rules false fresh rest := by
  cases rest with
  | nil => trivial
  | cons b rest => exact ⟨fun _ _ => longest?_eq_none_iff.1 (longest?_boundary hp hs hr rest), h.2⟩

end Untouched

section pass

variable {rules : List Rewrite} (hp : ∀ r ∈ rules, r.Plain) (hs : ∀ r ∈ rules, r.Solid)

include hp hs

/-- Single words are dropped at once: where one was, a boundary follows or nothing. -/
theorem untouched_of_single (single : ∀ r ∈ rules, r.words.tail = [] ∧ r.output = [])
    (inString fresh : Bool) (cs : List Char) :
    Untouched rules inString fresh (applyFrom rules 0 inString fresh cs) := by
  induction inString, fresh, cs using pass_induction hp with
  | nil => trivial
  | copied inString fresh c cs copies ih =>
    have here := applyFrom_copied copies
    rw [here]
    refine ⟨?_, ih⟩
    rintro rfl rfl r mem
    have same : c :: applyFrom rules 0 (false ^^ (c == '"')) (isBoundary c) cs =
      applyFrom rules 0 false false (c :: cs) := (applyFrom_copied copies_within).symm
    rw [same, Option.eq_none_iff_forall_ne_some]
    intro n found
    obtain ⟨w, hw⟩ : ∃ w, r.words = [w] := by
      cases hw : r.words with
      | nil => exact absurd hw (hp r mem).1
      | cons w ws => exact ⟨w, by rw [← (single r mem).1, hw, List.tail_cons]⟩
    have before := longest?_eq_none_iff.1 (copies rfl rfl) r mem
    rw [hw] at found before
    have inner := hs r mem w (by rw [hw]; exact List.mem_cons_self)
    rw [reach?_word_of_applyFrom inner found] at before
    cases before
  | replaced r w rest taken ih =>
    rw [applyFrom_replaced hp hs taken, (single r taken.mem).2, List.nil_append]
    have stop := taken.stop hp
    refine (ih false).stop hp hs ?_ true
    cases rest with
    | nil => rfl
    | cons b rest => rwa [applyFrom_boundary hp hs stop]

def Unmarked (r : Rewrite) : Prop := ∀ w ∈ r.words, sentinel ∉ w

/-- A pass that writes marked words leaves none of its own phrases, and puts together no other. -/
theorem untouched_of_marked (hm : ∀ r ∈ rules, r.Marked) (hu : ∀ r ∈ rules, r.Unmarked)
    {others : List Rewrite} (hp' : ∀ r ∈ others, r.Plain) (hs' : ∀ r ∈ others, r.Solid)
    (hu' : ∀ r ∈ others, r.Unmarked) {inString fresh : Bool} {cs : List Char}
    (h : Untouched others inString fresh cs) :
    Untouched (others ++ rules) inString fresh (applyFrom rules 0 inString fresh cs) := by
  have either {P : Rewrite → Prop} (h' : ∀ r ∈ others, P r) (h : ∀ r ∈ rules, P r) :
      ∀ r ∈ others ++ rules, P r :=
    fun r mem => (List.mem_append.1 mem).elim (h' r) (h r)
  induction inString, fresh, cs using pass_induction hp with
  | nil => trivial
  | copied inString fresh c cs copies ih =>
    have here := applyFrom_copied copies
    rw [here]
    refine ⟨?_, ih h.2⟩
    rintro rfl rfl r mem
    rw [← here, Option.eq_none_iff_forall_ne_some]
    intro n found
    have plain := either hp' hp r mem
    have before := reach?_of_applyFrom hp hs hm plain.1 (fun w hw =>
      ⟨(plain.2.1 w hw).1, either hu' hu r mem w hw, either hs' hs r mem w hw⟩) found
    have absent := either (h.1 rfl rfl) (longest?_eq_none_iff.1 (copies rfl rfl)) r mem
    rw [before] at absent
    cases absent
  | replaced r w rest taken ih =>
    have later := h.behind
    rw [quoteOpen_of_not_mem (taken.unquoted hp)] at later
    rw [applyFrom_replaced hp hs taken]
    obtain ⟨marked, inner⟩ := hm r taken.mem
    cases hr : r.output with
    | nil => rw [hr] at marked; cases marked
    | cons c out =>
      rw [hr] at marked inner
      obtain rfl : c = sentinel := Option.some.inj marked
      refine ⟨fun _ _ q hq => (either hp' hp q hq).reach?_of_not_mem (either hu' hu q hq) _, ?_⟩
      exact (Untouched.word inner (ih false later.within)).2

end pass

instance (r : Rewrite) : Decidable r.Unmarked := inferInstanceAs (Decidable (∀ w ∈ r.words, _))

theorem unmarked_dropArticles : ∀ r ∈ dropArticles, r.Unmarked := by decide

theorem unmarked_writeKeywords : ∀ r ∈ writeKeywords, r.Unmarked := by decide +kernel

theorem untouched_articles (text : List Char) :
    Untouched dropArticles false true (applyAll dropArticles text) :=
  untouched_of_single plain_dropArticles solid_dropArticles (by decide) false true text

end Rewrite

open Rewrite

/-- Neither an article nor a reserved phrase is left in a rewritten text. -/
theorem untouched_rewriteKeywords (text : List Char) :
    Untouched (dropArticles ++ writeKeywords) false true (rewriteKeywords text) :=
  untouched_of_marked plain_writeKeywords solid_writeKeywords marked_writeKeywords
    unmarked_writeKeywords plain_dropArticles solid_dropArticles unmarked_dropArticles
    (untouched_articles text)

/-- Rewriting a text that has been rewritten changes nothing. -/
theorem rewriteKeywords_idempotent (text : List Char) :
    rewriteKeywords (rewriteKeywords text) = rewriteKeywords text := by
  have untouched := untouched_rewriteKeywords text
  conv_lhs => rw [rewriteKeywords]
  rw [untouched.of_append_left.applyAll_eq, untouched.of_append_right.applyAll_eq]

end InventoryQuery
