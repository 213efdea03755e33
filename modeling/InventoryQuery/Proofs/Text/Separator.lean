import InventoryQuery.Proofs.Text.Cutting
import InventoryQuery.Text.Blank
import InventoryQuery.Text.Search
import Mathlib.Data.List.Infix

/-! Finding a separator again. What stands before one ends where it first begins, also if it begins
inside a part and ends behind it; the pieces of a text are those of its parts; and a text is trimmed
when its first and its last character are no blanks. -/

namespace InventoryQuery

/-- Where the separator begins at all, the part that ends before it comes out just if no copy begins
earlier. Such a copy can reach behind the part by all but its first character. -/
theorem upTo_append_eq_iff {sep xs ys : List Char} (hsep : sep ≠ []) (h : ys = [] ∨ sep <+: ys) :
    upTo sep (xs ++ ys) = xs ↔ ¬ sep <:+: xs ++ ys.take (sep.length - 1) := by
  have positive : 0 < sep.length := List.length_pos_iff.2 hsep
  induction xs with
  | nil =>
    have short : ¬ sep <:+: ys.take (sep.length - 1) := by
      intro inside
      have := inside.length_le
      rw [List.length_take] at this
      omega
    have cut : upTo sep ys = [] := by
      rcases h with rfl | begins
      · rfl
      · rcases ys with _ | ⟨y, ys⟩
        · rfl
        · rw [upTo, if_pos (List.isPrefixOf_iff_prefix.2 begins)]
    simp [cut, short]
  | cons x xs ih =>
    have ahead : sep <+: x :: (xs ++ ys) ↔ sep <+: x :: (xs ++ ys.take (sep.length - 1)) := by
      have window : (x :: (xs ++ ys)).take sep.length = (x :: (xs ++ ys.take (sep.length - 1))).take sep.length := by
        obtain ⟨n, hn⟩ : ∃ n, sep.length = n + 1 := ⟨sep.length - 1, by omega⟩
        rw [hn, List.take_succ_cons, List.take_succ_cons, List.take_append, List.take_append, List.take_take,
          Nat.add_sub_cancel, Nat.min_eq_left (Nat.sub_le ..)]
      rw [List.prefix_iff_eq_take, window, ← List.prefix_iff_eq_take]
    rw [List.cons_append, List.cons_append, upTo, List.infix_cons_iff, ← ahead, not_or, and_congr_right fun _ => ih.symm]
    by_cases begins : sep <+: x :: (xs ++ ys)
    · simp [begins]
    · simp [begins, mt List.isPrefixOf_iff_prefix.1 begins]

/-- A separator does not reach over a character that it does not hold. -/
theorem infix_append_cons_iff {sep : List Char} {b : Char} (hb : b ∉ sep) (hsep : sep ≠ []) (xs ys : List Char) :
    sep <:+: xs ++ b :: ys ↔ sep <:+: xs ∨ sep <:+: ys := by
  have stops {rest : List Char} (begins : rest <+: b :: ys) (inside : rest ⊆ sep) : rest = [] := by
    rcases rest with _ | ⟨c, rest⟩
    · rfl
    · obtain ⟨rfl, -⟩ := List.cons_prefix_cons.1 begins
      exact absurd (inside List.mem_cons_self) hb
  constructor
  · intro found
    rcases List.infix_append_iff.1 found with before | behind | ⟨left, right, split, ends, begins⟩
    · exact .inl before
    · rcases List.infix_cons_iff.1 behind with here | behind
      · exact absurd (stops here (List.Subset.refl _)) hsep
      · exact .inr behind
    · obtain rfl := stops begins (split ▸ List.subset_append_right _ _)
      rw [List.append_nil] at split
      exact .inl (split ▸ ends.isInfix)
  · rintro (before | behind)
    · exact before.trans (List.prefix_append _ _).isInfix
    · exact (behind.trans (List.suffix_cons _ _).isInfix).trans (List.suffix_append _ _).isInfix

section concat

variable {sep xs : List Char} {b c : Char}

theorem infix_concat_self_iff : sep ++ [b] <:+: xs ++ [b] ↔ sep ++ [b] <:+: xs ∨ sep <:+ xs := by
  rw [List.infix_concat_iff, or_comm]
  refine or_congr_right ⟨fun ⟨front, split⟩ => ⟨front, ?_⟩, fun ⟨front, split⟩ => ⟨front, ?_⟩⟩
  · rw [← List.append_assoc] at split
    exact List.append_cancel_right split
  · rw [← split, List.append_assoc]

theorem infix_concat_of_ne (h : b ≠ c) : sep ++ [b] <:+: xs ++ [c] ↔ sep ++ [b] <:+: xs := by
  rw [List.infix_concat_iff, or_iff_right]
  rintro ⟨front, split⟩
  have last := congrArg List.getLast? split
  rw [← List.append_assoc, List.getLast?_concat, List.getLast?_concat] at last
  exact h (Option.some.inj last)

end concat

theorem piecesAt_of_not_mem {sep : Char} {cs : List Char} (h : sep ∉ cs) : piecesAt sep cs = [cs] := by
  induction cs with
  | nil => rfl
  | cons c cs ih =>
    obtain ⟨hc, hcs⟩ := not_or.1 (mt List.mem_cons.2 h)
    rw [piecesAt, if_neg (Ne.symm hc), ih hcs]

theorem exists_piecesAt_cons {sep c : Char} (h : c ≠ sep) (cs : List Char) :
    ∃ p ps, piecesAt sep cs = p :: ps ∧ piecesAt sep (c :: cs) = (c :: p) :: ps := by
  obtain ⟨p, ps, hp⟩ := List.exists_cons_of_ne_nil (piecesAt_ne_nil sep cs)
  exact ⟨p, ps, hp, by rw [piecesAt, if_neg h, hp]⟩

theorem piecesAt_append_cons (sep : Char) (xs ys : List Char) :
    piecesAt sep (xs ++ sep :: ys) = piecesAt sep xs ++ piecesAt sep ys := by
  induction xs with
  | nil => simp [piecesAt]
  | cons x xs ih =>
    by_cases separates : x = sep
    · simp [piecesAt, separates, ih]
    · obtain ⟨p, ps, hp, hx⟩ := exists_piecesAt_cons separates xs
      rw [hx, List.cons_append, piecesAt, if_neg separates, ih, hp]
      rfl

theorem trim_eq_self_iff (cs : List Char) :
    trim cs = cs ↔ (∀ c ∈ cs.head?, ¬ isBlank c) ∧ ∀ c ∈ cs.getLast?, ¬ isBlank c := by
  have keeps (ds : List Char) : ds.dropWhile isBlank = ds ↔ ∀ d ∈ ds.head?, ¬ isBlank d := by
    rcases ds with _ | ⟨d, ds⟩
    · simp
    · rw [List.dropWhile_eq_self_iff]
      simp
  have right (ds : List Char) : trimRight ds = ds ↔ ∀ d ∈ ds.getLast?, ¬ isBlank d := by
    rw [trimRight, List.reverse_eq_iff, keeps, List.head?_reverse]
  constructor
  · intro same
    have shorter : (trimRight (trimLeft cs)).length ≤ (trimLeft cs).length := by
      simpa [trimRight] using (List.dropWhile_suffix isBlank (l := (trimLeft cs).reverse)).length_le
    rw [trim] at same
    rw [same] at shorter
    have left : trimLeft cs = cs := (List.dropWhile_suffix isBlank).eq_of_length_le shorter
    rw [left] at same
    exact ⟨(keeps cs).1 left, (right cs).1 same⟩
  · rintro ⟨first, last⟩
    rw [trim, trimLeft, (keeps cs).2 first, (right cs).2 last]

theorem trim_cons {c : Char} (h : isBlank c) (cs : List Char) : trim (c :: cs) = trim cs := by
  rw [trim, trimLeft, List.dropWhile_cons_of_pos h]
  rfl

end InventoryQuery
