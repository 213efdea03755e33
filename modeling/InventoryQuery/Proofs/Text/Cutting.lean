import Mathlib.Data.List.Basic
import Mathlib.Data.List.TakeWhile

/-! Two texts one behind the other. What cannot go on with the first character of the second is in the
first or is not found there; where a run ends at the second, it can be told from the whole; and
whether the second is in a string depends on the quotes of the first. -/

namespace InventoryQuery

theorem isPrefixOf?_append_of_not_mem {w : List Char} {b : Char} (h : b ∉ w) (cs q : List Char) :
    w.isPrefixOf? (cs ++ b :: q) = (w.isPrefixOf? cs).map (· ++ b :: q) := by
  induction w generalizing cs with
  | nil => rfl
  | cons a w ih =>
    obtain ⟨ha, hw⟩ := not_or.1 (mt List.mem_cons.2 h)
    cases cs with
    | nil => simp [List.isPrefixOf?, Ne.symm ha]
    | cons c cs =>
      simp only [List.cons_append, List.isPrefixOf?]
      split
      · exact ih hw cs
      · rfl

theorem isPrefixOf_append_of_not_mem {w : List Char} {b : Char} (h : b ∉ w) (cs q : List Char) :
    w.isPrefixOf (cs ++ b :: q) = w.isPrefixOf cs := by
  rw [← List.isSome_isPrefixOf?_eq_isPrefixOf, ← List.isSome_isPrefixOf?_eq_isPrefixOf,
    isPrefixOf?_append_of_not_mem h, Option.isSome_map]

section stop

variable {p : Char → Bool} {b : Char} (h : p b = false) (cs q : List Char)

include h

theorem takeWhile_append_stop : (cs ++ b :: q).takeWhile p = cs.takeWhile p := by
  rw [List.takeWhile_append]
  split
  · rename_i hl
    rw [List.takeWhile_cons_of_neg (by simp [h]), List.append_nil,
      (List.takeWhile_prefix p).eq_of_length hl]
  · rfl

theorem dropWhile_append_stop : (cs ++ b :: q).dropWhile p = cs.dropWhile p ++ b :: q := by
  rw [List.dropWhile_append]
  split
  · rename_i none
    rw [List.dropWhile_cons_of_neg (by simp [h]), List.isEmpty_iff.1 none]
    rfl
  · rfl

end stop

section run

variable {p : Char → Bool} {cs ds rest rest' : List Char}

theorem takeWhile_run (hs : ∀ d ∈ cs, p d) (hr : ∀ d ∈ rest.head?, ¬ p d) :
    (cs ++ rest).takeWhile p = cs := by
  rw [List.takeWhile_append_of_pos hs]
  cases rest with
  | nil => exact List.append_nil cs
  | cons d rest => rw [List.takeWhile_cons_of_neg (hr d rfl), List.append_nil]

theorem dropWhile_run (hs : ∀ d ∈ cs, p d) (hr : ∀ d ∈ rest.head?, ¬ p d) :
    (cs ++ rest).dropWhile p = rest := by
  rw [List.dropWhile_append_of_pos hs]
  cases rest with
  | nil => rfl
  | cons d rest => rw [List.dropWhile_cons_of_neg (hr d rfl)]

/-- Every text is a run and what does not go on with it. -/
theorem exists_run (p : Char → Bool) (cs : List Char) :
    ∃ run rest, cs = run ++ rest ∧ (∀ d ∈ run, p d) ∧ ∀ d ∈ rest.head?, ¬ p d := by
  refine ⟨cs.takeWhile p, cs.dropWhile p, List.takeWhile_append_dropWhile.symm, fun d hd => List.mem_takeWhile_imp hd, ?_⟩
  intro d hd
  have stop := List.head?_dropWhile_not p cs
  rw [hd] at stop
  simpa using stop

/-- Where a run ends can be told from the whole text. -/
theorem run_append_inj (hs : ∀ d ∈ cs, p d) (hs' : ∀ d ∈ ds, p d) (hr : ∀ d ∈ rest.head?, ¬ p d)
    (hr' : ∀ d ∈ rest'.head?, ¬ p d) (h : cs ++ rest = ds ++ rest') : cs = ds ∧ rest = rest' := by
  have same : cs = ds := by rw [← takeWhile_run hs hr, h, takeWhile_run hs' hr']
  exact ⟨same, List.append_cancel_left (same ▸ h)⟩

end run

/-- Whether a quote is open after `cs`, where `inside` says whether one was open before. -/
def quoteOpen (inside : Bool) (cs : List Char) : Bool :=
  cs.foldl (fun b c => b ^^ (c == '"')) inside

theorem quoteOpen_append (inside : Bool) (xs ys : List Char) :
    quoteOpen inside (xs ++ ys) = quoteOpen (quoteOpen inside xs) ys :=
  List.foldl_append

theorem quoteOpen_cons_of_ne {c : Char} (h : '"' ≠ c) (inside : Bool) (cs : List Char) :
    quoteOpen inside (c :: cs) = quoteOpen inside cs := by
  rw [quoteOpen, List.foldl_cons, beq_false_of_ne (Ne.symm h), Bool.xor_false]
  rfl

theorem quoteOpen_of_not_mem {cs : List Char} (h : '"' ∉ cs) (inside : Bool) :
    quoteOpen inside cs = inside := by
  induction cs with
  | nil => rfl
  | cons c cs ih =>
    obtain ⟨hc, hcs⟩ := not_or.1 (mt List.mem_cons.2 h)
    rw [quoteOpen_cons_of_ne hc, ih hcs]

theorem quoteOpen_eq_count (inside : Bool) (cs : List Char) :
    quoteOpen inside cs = (inside ^^ decide (cs.count '"' % 2 = 1)) := by
  induction cs generalizing inside with
  | nil => cases inside <;> rfl
  | cons c cs ih =>
    by_cases quote : c = '"'
    · subst quote
      have opened : quoteOpen inside ('"' :: cs) = quoteOpen (!inside) cs := by cases inside <;> rfl
      rw [opened, ih, List.count_cons_self]
      rcases Nat.mod_two_eq_zero_or_one (cs.count '"') with h | h <;>
        simp [Nat.add_mod, h]
    · rw [quoteOpen_cons_of_ne (Ne.symm quote), ih, List.count_cons_of_ne quote]

end InventoryQuery
