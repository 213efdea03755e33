import Mathlib.Data.Nat.Digits.Defs
import InventoryQuery.Proofs.Catalog.Version
import InventoryQuery.Proofs.Text.Separator

/-! Versions as lists of numbers. Zeros at the end change no comparison, and lists of one length are
compared number by number from the left, so that any two versions are compared as the lists are once
the shorter one is filled up with zeros. A segment of digits stands for the number that it denotes if
the number fits in a word, and for zero otherwise. -/

namespace InventoryQuery

theorem compareSegments_append_zero (as bs : List Nat) : compareSegments (as ++ [0]) bs = compareSegments as bs := by
  fun_induction compareSegments as bs with
  | case1 => simp [compareSegments]
  | case2 b bs ih => simp [compareSegments]
  | case3 a as ih => rw [List.cons_append, compareSegments, ih]
  | case4 a as b bs ih => rw [List.cons_append, compareSegments, ih]

theorem compareSegments_append_zeros (as bs : List Nat) (n : Nat) :
    compareSegments (as ++ List.replicate n 0) bs = compareSegments as bs := by
  induction n with
  | zero => rw [List.replicate_zero, List.append_nil]
  | succ n ih => rw [List.replicate_succ', ← List.append_assoc, compareSegments_append_zero, ih]

theorem compareSegments_of_length {as bs : List Nat} (h : as.length = bs.length) :
    compareSegments as bs = compare as bs := by
  fun_induction compareSegments as bs with
  | case1 => rfl
  | case2 b bs ih => cases h
  | case3 a as ih => cases h
  | case4 a as b bs ih => rw [List.compare_cons_cons, ih (Nat.succ.inj h)]

theorem compareSegments_eq_compare {as bs : List Nat} {n : Nat} (ha : as.length ≤ n) (hb : bs.length ≤ n) :
    compareSegments as bs = compare (as.rightpad n 0) (bs.rightpad n 0) := by
  have long (xs : List Nat) (h : xs.length ≤ n) : (xs.rightpad n 0).length = n := by
    rw [List.length_rightpad, Nat.max_eq_left h]
  rw [← compareSegments_of_length ((long as ha).trans (long bs hb).symm), List.rightpad, List.rightpad,
    compareSegments_append_zeros, compareSegments_swap as, compareSegments_swap as, compareSegments_append_zeros]

theorem piecesAt_zeros (cs : List Char) (n : Nat) :
    piecesAt '.' (cs ++ (List.replicate n ".0").flatMap String.toList) = piecesAt '.' cs ++ List.replicate n ['0'] := by
  induction n generalizing cs with
  | zero => simp
  | succ n ih =>
    rw [List.replicate_succ, List.flatMap_cons]
    exact (piecesAt_append_cons '.' cs _).trans (congrArg _ (ih ['0']))

theorem segments_zeros (version : String) (n : Nat) :
    segments (version ++ String.join (List.replicate n ".0")) = segments version ++ List.replicate n 0 := by
  rw [segments, String.toList_append, String.toList_join, piecesAt_zeros, List.map_append, List.map_replicate]
  rfl

/-- The comparison of versions is a total preorder, in which zeros at the end of a version do not
count. -/
theorem compareVersions_preorder (a b c : String) :
    compareVersions a a = .eq ∧ compareVersions b a = (compareVersions a b).swap ∧
    (compareVersions a b ≠ .gt → compareVersions b c ≠ .gt →
      compareVersions a c ≠ .gt ∧
        (compareVersions a b = .lt ∨ compareVersions b c = .lt → compareVersions a c = .lt)) ∧
    ∀ n, let longer := a ++ String.join (List.replicate n ".0")
      compareVersions longer b = compareVersions a b ∧ compareVersions b longer = compareVersions b a := by
  refine ⟨Std.ReflCmp.compare_self, Std.OrientedCmp.eq_swap, ?_, ?_⟩
  · intro hab hbc
    have lower := Ordering.isLE_iff_ne_gt.2 hab
    have upper := Ordering.isLE_iff_ne_gt.2 hbc
    refine ⟨Ordering.isLE_iff_ne_gt.1 (Std.TransCmp.isLE_trans lower upper), ?_⟩
    rintro (less | less)
    · exact Std.TransCmp.lt_of_lt_of_isLE less upper
    · exact Std.TransCmp.lt_of_isLE_of_lt lower less
  · intro n longer
    have left : compareVersions longer b = compareVersions a b := by
      rw [compareVersions, segments_zeros, compareSegments_append_zeros]
      rfl
    refine ⟨left, ?_⟩
    calc compareVersions b longer = (compareVersions longer b).swap := Std.OrientedCmp.eq_swap
      _ = (compareVersions a b).swap := congrArg _ left
      _ = compareVersions b a := Std.OrientedCmp.eq_swap.symm

theorem compareVersions_preorder_lengths :
    compareVersions "7.2a" "7.10" ≠ .gt ∧ compareVersions "7.10" "07.10.0.1" ≠ .gt ∧
      compareVersions "7.2a" "07.10.0.1" ≠ .gt ∧ compareVersions "7.2a" "07.10.0.1" = .lt ∧
      compareVersions "7.2a.0.0" "7.10" = compareVersions "7.2a" "7.10" := by
  have first : compareVersions "7.2a" "7.10" = .lt :=
    (compareSegments_eq_compare (n := 2) (by decide +kernel) (by decide +kernel)).trans (by decide +kernel)
  have second : compareVersions "7.10" "07.10.0.1" = .lt :=
    (compareSegments_eq_compare (n := 4) (by decide +kernel) (by decide +kernel)).trans (by decide +kernel)
  have law := compareVersions_preorder "7.2a" "7.10" "07.10.0.1"
  have hab : compareVersions "7.2a" "7.10" ≠ .gt := by rw [first]; decide
  have hbc : compareVersions "7.10" "07.10.0.1" ≠ .gt := by rw [second]; decide
  obtain ⟨reached, less⟩ := law.2.2.1 hab hbc
  exact ⟨hab, hbc, reached, less (.inl first), (law.2.2.2 2).1⟩

/-- The number that a run of decimal digits denotes, the last digit counting once. -/
def denoted (digits : List Char) : Nat := Nat.ofDigits 10 (digits.reverse.map fun d => d.toNat - '0'.toNat)

def Numeric (version : String) : Prop := ∀ s ∈ piecesAt '.' version.toList, s ≠ [] ∧ ∀ d ∈ s, d.isDigit

instance (version : String) : Decidable (Numeric version) :=
  decidable_of_iff ((piecesAt '.' version.toList).all fun s => !s.isEmpty && s.all Char.isDigit) (by simp [Numeric])

def numbers (version : String) : List Nat := (piecesAt '.' version.toList).map denoted

def stored (n : Nat) : Nat := if n < wordLimit then n else 0

theorem decimalValue_eq_denoted (digits : List Char) : decimalValue digits = denoted digits := by
  induction digits using List.reverseRecOn with
  | nil => rfl
  | append_singleton digits d ih =>
    rw [denoted, List.reverse_append, List.reverse_singleton, List.singleton_append, List.map_cons, Nat.ofDigits_cons,
      ← denoted, ← ih, decimalValue, List.foldl_append, List.foldl_cons, List.foldl_nil, ← decimalValue, Nat.add_comm]

theorem not_isBlank_of_isDigit {d : Char} (h : d.isDigit) : ¬ isBlank d := by
  simp only [Char.isDigit, Bool.and_eq_true, decide_eq_true_eq, ge_iff_le, UInt32.le_iff_toNat_le] at h
  have low : 48 ≤ d.toNat := h.1
  have high : d.toNat ≤ 57 := h.2
  simp only [isBlank, Bool.or_eq_true, Bool.and_eq_true, decide_eq_true_eq, beq_iff_eq]
  omega

theorem segmentValue_of_digits {s : List Char} (h : ∀ d ∈ s, d.isDigit) : segmentValue s = stored (denoted s) := by
  have whole : trim s = s := by
    refine (trim_eq_self_iff s).2 ⟨fun d hd => ?_, fun d hd => ?_⟩
    · exact not_isBlank_of_isDigit (h d (List.mem_of_mem_head? hd))
    · exact not_isBlank_of_isDigit (h d (List.mem_of_getLast? hd))
  rw [segmentValue, whole, List.takeWhile_eq_self_iff.2 h, decimalValue_eq_denoted]
  rfl

theorem segments_of_numeric {version : String} (h : Numeric version) : segments version = (numbers version).map stored := by
  rw [segments, numbers, List.map_map]
  exact List.map_congr_left fun s hs => segmentValue_of_digits (h s hs).2

/-- Numerals are compared as the numbers that are stored of them, the shorter version filled up with
zeros. That is the comparison of the numbers themselves where all of them fit in a word. -/
theorem compareVersions_numeric (a b : String) (ha : Numeric a) (hb : Numeric b) :
    let n := max (numbers a).length (numbers b).length
    compareVersions a b = compare (((numbers a).map stored).rightpad n 0) (((numbers b).map stored).rightpad n 0) ∧
    ((∀ v ∈ numbers a ++ numbers b, v < wordLimit) →
      compareVersions a b = compare ((numbers a).rightpad n 0) ((numbers b).rightpad n 0)) := by
  intro n
  have general : compareVersions a b =
      compare (((numbers a).map stored).rightpad n 0) (((numbers b).map stored).rightpad n 0) := by
    rw [compareVersions, segments_of_numeric ha, segments_of_numeric hb]
    exact compareSegments_eq_compare (by simp [n]) (by simp [n])
  refine ⟨general, fun small => ?_⟩
  have kept (ns : List Nat) (h : ∀ v ∈ ns, v < wordLimit) : ns.map stored = ns := by
    refine (List.map_congr_left fun v hv => ?_).trans (List.map_id ns)
    rw [stored, if_pos (h v hv), id_eq]
  rw [general, kept _ fun v hv => small v (List.mem_append_left _ hv),
    kept _ fun v hv => small v (List.mem_append_right _ hv)]

theorem compareVersions_numeric_widest :
    Numeric "18446744073709551615.10" ∧ Numeric "0018446744073709551615.9.1" ∧
      (∀ v ∈ numbers "18446744073709551615.10" ++ numbers "0018446744073709551615.9.1", v < wordLimit) ∧
      compareVersions "18446744073709551615.10" "0018446744073709551615.9.1" =
        compare [18446744073709551615, 10, 0] [18446744073709551615, 9, 1] := by
  have ha : Numeric "18446744073709551615.10" := by decide +kernel
  have hb : Numeric "0018446744073709551615.9.1" := by decide +kernel
  have small : ∀ v ∈ numbers "18446744073709551615.10" ++ numbers "0018446744073709551615.9.1", v < wordLimit := by
    decide +kernel
  exact ⟨ha, hb, small, (compareVersions_numeric _ _ ha hb).2 small⟩

/-- The first number that does not fit in a word is below one. -/
theorem compareVersions_beyond_word :
    Numeric "18446744073709551616" ∧ Numeric "1" ∧ numbers "18446744073709551616" = [18446744073709551616] ∧
      numbers "1" = [1] ∧ compareVersions "18446744073709551616" "1" = .lt ∧
      compare [18446744073709551616] [1] = Ordering.gt := by
  have below : compareVersions "18446744073709551616" "1" = .lt :=
    (compareSegments_eq_compare (n := 1) (by decide +kernel) (by decide +kernel)).trans (by decide +kernel)
  exact ⟨by decide +kernel, by decide +kernel, by decide +kernel, by decide +kernel, below, by decide⟩

end InventoryQuery
