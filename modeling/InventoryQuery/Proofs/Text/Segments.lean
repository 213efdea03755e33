import InventoryQuery.Proofs.Text.Cutting

/-! The double quotes of a text in pairs, and what stands between the quotes of a pair. -/

namespace InventoryQuery

/-- The texts between consecutive pairs of double quotes. Where a quote is open already, `open?` is
what has been read since. -/
def quotedSegments : (open? : Option (List Char)) → List Char → List (List Char)
  | _, [] => []
  | none, c :: cs => if c = '"' then quotedSegments (some []) cs else quotedSegments none cs
  | some body, c :: cs => if c = '"' then body :: quotedSegments none cs else quotedSegments (some (body ++ [c])) cs

/-- What the next character makes of an open quote. -/
def afterChar (open? : Option (List Char)) (c : Char) : Option (List Char) :=
  match open? with
  | none => if c = '"' then some [] else none
  | some body => if c = '"' then none else some (body ++ [c])

theorem isSome_afterChar (open? : Option (List Char)) (c : Char) :
    (afterChar open? c).isSome = (open?.isSome ^^ (c == '"')) := by
  by_cases quote : c = '"' <;> cases open? <;> simp [afterChar, quote]

/-- Texts with the same segments have them behind a common character as well. -/
theorem quotedSegments_cons_congr {open? : Option (List Char)} {c : Char} {cs ds : List Char}
    (h : quotedSegments (afterChar open? c) cs = quotedSegments (afterChar open? c) ds) :
    quotedSegments open? (c :: cs) = quotedSegments open? (c :: ds) := by
  by_cases quote : c = '"' <;> cases open? <;> simp_all [quotedSegments, afterChar]

theorem quotedSegments_append_of_not_mem {xs : List Char} (h : '"' ∉ xs) (ys : List Char) :
    quotedSegments none (xs ++ ys) = quotedSegments none ys := by
  induction xs with
  | nil => rfl
  | cons c xs ih =>
    obtain ⟨hc, hxs⟩ := not_or.1 (mt List.mem_cons.2 h)
    rw [List.cons_append, quotedSegments, if_neg (Ne.symm hc), ih hxs]

theorem quotedSegments_open {body : List Char} (h : '"' ∉ body) (before ys : List Char) :
    quotedSegments (some before) (body ++ '"' :: ys) = (before ++ body) :: quotedSegments none ys := by
  induction body generalizing before with
  | nil => simp [quotedSegments]
  | cons c body ih =>
    obtain ⟨hc, hb⟩ := not_or.1 (mt List.mem_cons.2 h)
    rw [List.cons_append, quotedSegments, if_neg (Ne.symm hc), ih hb, List.append_assoc,
      List.singleton_append]

theorem quotedSegments_string {body : List Char} (h : '"' ∉ body) (ys : List Char) :
    quotedSegments none ('"' :: (body ++ ['"']) ++ ys) = body :: quotedSegments none ys := by
  rw [List.cons_append, List.append_assoc, quotedSegments, if_pos rfl]
  exact quotedSegments_open h [] ys

end InventoryQuery
