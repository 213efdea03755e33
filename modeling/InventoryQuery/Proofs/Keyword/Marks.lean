import InventoryQuery.Proofs.Keyword.Pass
import InventoryQuery.Proofs.Text.Outside

/-! Rewriting neither drops nor writes double quotes and the characters that are tokens by
themselves and occur in no reserved phrase. All that is read off these signs alone is therefore the
same before and after: whether a quote is open, and what is counted outside quotes. -/

namespace InventoryQuery

/-- Characters that are a token by themselves wherever they stand outside double quotes, and the
kind of the token. -/
def marks : List (Char × Kind) := [('(', .leftParen), (')', .rightParen), ('?', .question)]

/-- A double quote or a mark. -/
def isSign (c : Char) : Bool := c = '"' || marks.any (·.1 = c)

theorem isSign_mark : ∀ m ∈ marks, isSign m.1 := by decide

theorem isSign_eq_false_of_isBlank {c : Char} (h : isBlank c) : isSign c = false := by
  by_contra hs
  rw [Bool.not_eq_false] at hs
  have : c = '"' ∨ c = '(' ∨ c = ')' ∨ c = '?' := by
    simpa [isSign, marks, eq_comm (b := c)] using hs
  obtain rfl | rfl | rfl | rfl := this <;> exact absurd h (by decide)

namespace Rewrite

def Signless (r : Rewrite) : Prop :=
  (∀ w ∈ r.words, w.filter isSign = []) ∧ r.output.filter isSign = []

instance (r : Rewrite) : Decidable r.Signless := inferInstanceAs (Decidable (_ ∧ _))

theorem signless_dropArticles : ∀ r ∈ dropArticles, r.Signless := by decide

theorem signless_writeKeywords : ∀ r ∈ writeKeywords, r.Signless := by decide +kernel

/-- The signs of a text are still there once the rules have been applied, in the same order. -/
theorem filter_applyFrom {rules : List Rewrite} (hp : ∀ r ∈ rules, r.Plain)
    (hr : ∀ r ∈ rules, r.Signless) (inString fresh : Bool) (cs : List Char) :
    (applyFrom rules 0 inString fresh cs).filter isSign = cs.filter isSign := by
  induction inString, fresh, cs using pass_induction hp with
  | nil => rfl
  | copied inString fresh c cs copies ih => rw [applyFrom_copied copies, List.filter_cons, List.filter_cons, ih]
  | replaced r w rest taken ih =>
    have clean : w.filter isSign = [] := by
      refine List.filter_eq_nil_iff.2 fun c hc => ?_
      rcases taken.chars c hc with blank | ⟨v, hv, hc⟩
      · simp [isSign_eq_false_of_isBlank blank]
      · exact List.filter_eq_nil_iff.1 ((hr r taken.mem).1 v hv) c hc
    rw [taken.applyFrom_eq, List.filter_append, List.filter_append, (hr r taken.mem).2, clean, ih]

end Rewrite

open Rewrite

theorem filter_rewriteKeywords (text : List Char) :
    (rewriteKeywords text).filter isSign = text.filter isSign := by
  rw [rewriteKeywords, applyAll, applyAll,
    filter_applyFrom plain_writeKeywords signless_writeKeywords,
    filter_applyFrom plain_dropArticles signless_dropArticles]

section signs

variable {m : Char × Kind} {xs ys : List Char} (h : xs.filter isSign = ys.filter isSign)

include h

theorem quoteOpen_of_signs (inside : Bool) : quoteOpen inside xs = quoteOpen inside ys := by
  rw [← quoteOpen_filter (p := isSign) rfl, h, quoteOpen_filter rfl]

theorem count_of_signs (hm : m ∈ marks) : xs.count m.1 = ys.count m.1 := by
  rw [← List.count_filter (isSign_mark m hm), h, List.count_filter (isSign_mark m hm)]

theorem count_outside_of_signs (hm : m ∈ marks) (inside : Bool) :
    (outside inside xs).count m.1 = (outside inside ys).count m.1 := by
  rw [← List.count_filter (isSign_mark m hm), ← outside_filter rfl, h, outside_filter rfl,
    List.count_filter (isSign_mark m hm)]

end signs

theorem count_outside_rewriteKeywords {m : Char × Kind} (hm : m ∈ marks) (text : List Char) :
    (outside false (rewriteKeywords text)).count m.1 = (outside false text).count m.1 :=
  count_outside_of_signs (filter_rewriteKeywords text) hm false

/-- A mark of the text is found again in the rewritten text, between the same signs. -/
theorem rewriteKeywords_mark {m : Char × Kind} (hm : m ∈ marks) (pre post : List Char) :
    ∃ u v, rewriteKeywords (pre ++ m.1 :: post) = u ++ m.1 :: v ∧
      u.filter isSign = pre.filter isSign ∧ v.filter isSign = post.filter isSign := by
  have signs := filter_rewriteKeywords (pre ++ m.1 :: post)
  rw [List.filter_append, List.filter_cons_of_pos (isSign_mark m hm),
    List.filter_eq_append_iff] at signs
  obtain ⟨before, rest, split, hu, hrest⟩ := signs
  obtain ⟨gap, v, rfl, hgap, -, hv⟩ := List.filter_eq_cons_iff.1 hrest
  refine ⟨before ++ gap, v, by rw [split, List.append_assoc], ?_, hv⟩
  rw [List.filter_append, hu, List.filter_eq_nil_iff.2 hgap, List.append_nil]

end InventoryQuery
