import Mathlib.Data.List.Perm.Subperm
import InventoryQuery.Proofs.Catalog.Build

/-! Versions are compared as if they went on with zeros for ever, which makes the comparison a total
preorder. So what one version admits every later version admits, and an index that is built for a
later version has the keys of the earlier one and its facts in the same order. -/

namespace InventoryQuery

/-- The missing numbers count as zero. -/
theorem compareSegments_eq (as bs : List Nat) :
    compareSegments as bs = (compare (as.headD 0) (bs.headD 0)).then (compareSegments as.tail bs.tail) := by
  rcases as with _ | ⟨a, as⟩ <;> rcases bs with _ | ⟨b, bs⟩ <;> rw [compareSegments]
  · rw [List.tail_nil, compareSegments]
    rfl
  · rfl
  · rfl
  · rfl

theorem isLE_compareSegments_iff (as bs : List Nat) :
    (compareSegments as bs).isLE ↔ as.headD 0 < bs.headD 0 ∨
      as.headD 0 = bs.headD 0 ∧ (compareSegments as.tail bs.tail).isLE := by
  rw [compareSegments_eq, Ordering.isLE_then_iff_or, Nat.compare_eq_lt, Nat.compare_eq_eq]

theorem compareSegments_swap (as bs : List Nat) : compareSegments as bs = (compareSegments bs as).swap := by
  fun_induction compareSegments as bs with
  | case1 => rw [compareSegments, Ordering.swap_eq]
  | case2 b bs ih => rw [compareSegments, Ordering.swap_then, Nat.compare_swap, ← ih]
  | case3 a as ih => rw [compareSegments, Ordering.swap_then, Nat.compare_swap, ← ih]
  | case4 a as b bs ih => rw [compareSegments, Ordering.swap_then, Nat.compare_swap, ← ih]

/-- The lengths differ, so the induction is on a bound for all three. -/
theorem isLE_compareSegments_trans (n : Nat) (as bs cs : List Nat) (ha : as.length ≤ n) (hb : bs.length ≤ n)
    (hc : cs.length ≤ n) (hab : (compareSegments as bs).isLE) (hbc : (compareSegments bs cs).isLE) :
    (compareSegments as cs).isLE := by
  induction n generalizing as bs cs with
  | zero =>
    rw [List.eq_nil_of_length_eq_zero (by omega : as.length = 0), List.eq_nil_of_length_eq_zero (by omega : cs.length = 0),
      compareSegments]
    rfl
  | succ n ih =>
    rw [isLE_compareSegments_iff] at hab hbc ⊢
    have rest := ih as.tail bs.tail cs.tail (by rw [List.length_tail]; omega) (by rw [List.length_tail]; omega)
      (by rw [List.length_tail]; omega)
    rcases hab with hab | ⟨hab, restab⟩
    · left
      rcases hbc with hbc | ⟨hbc, -⟩ <;> omega
    · rcases hbc with hbc | ⟨hbc, restbc⟩
      · left
        omega
      · exact .inr ⟨hab.trans hbc, rest restab restbc⟩

instance : Std.TransCmp compareSegments where
  eq_swap := compareSegments_swap _ _
  isLE_trans {as bs cs} := isLE_compareSegments_trans (max as.length (max bs.length cs.length)) as bs cs
    (by omega) (by omega) (by omega)

instance : Std.TransCmp compareVersions where
  eq_swap := compareSegments_swap _ _
  isLE_trans {a b c} := @Std.TransCmp.isLE_trans _ compareSegments _ (segments a) (segments b) (segments c)

variable {v w : String} {platform : Option String}

theorem Filter.admitsEntry_later (h : compareVersions v w ≠ .gt) {version : String} {platforms : List String}
    (admitted : (Filter.mk (some v) platform).admitsEntry version platforms) :
    (Filter.mk (some w) platform).admitsEntry version platforms := by
  simp only [Filter.admitsEntry, Option.all_some, Bool.and_eq_true, bne_iff_ne] at admitted ⊢
  obtain ⟨reached, present⟩ := admitted
  have later : (compareVersions w v).isGE := Std.OrientedCmp.isGE_iff_isLE.2 (Ordering.isLE_iff_ne_gt.2 h)
  refine ⟨?_, present⟩
  exact Ordering.isGE_iff_ne_lt.1 (Std.TransCmp.isGE_trans later (Ordering.isGE_iff_ne_lt.2 reached))

theorem Filter.admits_later (h : compareVersions v w ≠ .gt) {a : Availability}
    (admitted : (Filter.mk (some v) platform).admits a) : (Filter.mk (some w) platform).admits a := by
  simp only [Filter.admits, Filter.isUnfiltered, Option.isNone_some, Bool.false_and, Bool.false_or,
    List.any_eq_true] at admitted ⊢
  obtain ⟨e, he, entry⟩ := admitted
  exact ⟨e, he, admitsEntry_later h entry⟩

theorem Catalog.indexed_later (c : Catalog) (h : compareVersions v w ≠ .gt) :
    (c.indexed ⟨some v, platform⟩).Sublist (c.indexed ⟨some w, platform⟩) := by
  have admitted : (c.admitted ⟨some v, platform⟩).Sublist (c.admitted ⟨some w, platform⟩) :=
    List.monotone_filter_right _ fun _ => Filter.admits_later h
  exact admitted.filter _

namespace Index

theorem keys_later (c : Catalog) (h : compareVersions v w ≠ .gt) :
    (build c ⟨some v, platform⟩).keys.keys ⊆ (build c ⟨some w, platform⟩).keys.keys := by
  intro key hk
  rw [mem_keys_build] at hk ⊢
  obtain ⟨f, hf, keyed⟩ := hk
  exact ⟨f, (c.indexed_later h).subset hf, keyed⟩

theorem ownedBy_later (c : Catalog) (h : compareVersions v w ≠ .gt) (owner : Option String) :
    ((build c ⟨some v, platform⟩).ownedBy owner).Sublist ((build c ⟨some w, platform⟩).ownedBy owner) := by
  rw [ownedBy_build, ownedBy_build]
  exact (c.indexed_later h).filter _

/-- A later version hides nothing that an earlier one shows. -/
theorem raised_version_keeps (c : Catalog) (platform : Option String) (v w : String)
    (h : compareVersions v w ≠ .gt) :
    let before := Filter.mk (some v) platform
    let after := Filter.mk (some w) platform
    (∀ a, before.admits a → after.admits a) ∧
      (∀ key, ((build c before).get? key).isSome → ((build c after).get? key).isSome) ∧
      (build c before).propertyCount ≤ (build c after).propertyCount ∧
      ((build c before).allProperties worldType).Sublist ((build c after).allProperties worldType) := by
  intro before after
  have keys : (build c before).keys.keys ⊆ (build c after).keys.keys := keys_later c h
  refine ⟨fun a => Filter.admits_later h, fun key present => ?_, ?_, ?_⟩
  · rw [get?, ← OrderedMap.mem_keys_iff] at present ⊢
    exact keys present
  · rw [propertyCount_eq, propertyCount_eq]
    exact (List.subperm_of_subset (build c before).keys.distinct keys).length_le
  · rw [allProperties, allProperties, if_pos rfl, if_pos rfl]
    exact ownedBy_later c h none

theorem raised_version_keeps_nine :
    let eight : Availability := .ofList [("7.2a", ["win", "mac"]), ("11", ["win"])]
    let nine : Availability := .ofList [("9", ["win"])]
    let fact (key : String) (a : Availability) : PropertyFact := ⟨key, none, none, none, none, "x", a, none⟩
    let c : Catalog := ⟨.empty, .ofList [("a", fact "a: x" eight), ("b", fact "b: x" nine), ("a'", fact "a: y" nine)]⟩
    let before := Filter.mk (some "8") (some "win")
    let after := Filter.mk (some "9.0") (some "win")
    compareVersions "8" "9.0" ≠ .gt ∧ before.admits eight ∧ after.admits eight ∧
      ((build c before).get? "a").isSome ∧ ((build c after).get? "a").isSome ∧
      (build c before).propertyCount ≤ (build c after).propertyCount ∧
      fact "a: x" eight ∈ (build c before).allProperties worldType ∧
      fact "a: x" eight ∈ (build c after).allProperties worldType := by
  intro eight nine fact c before after
  have order : compareVersions "8" "9.0" = .lt := (compareSegments_eq _ _).trans (by decide +kernel)
  have raised : compareVersions "8" "9.0" ≠ .gt := by rw [order]; nofun
  have reached : compareVersions "8" "7.2a" = .gt := (compareSegments_eq _ _).trans (by decide +kernel)
  have shown : before.admits eight := by
    rw [Filter.admits, Bool.or_eq_true, List.any_eq_true]
    refine .inr ⟨("7.2a", ["win", "mac"]), by decide +kernel, ?_⟩
    simp [Filter.admitsEntry, before, reached]
  have indexed : fact "a: x" eight ∈ c.indexed before :=
    List.mem_filter.2 ⟨List.mem_filter.2 ⟨by decide +kernel, shown⟩, by decide +kernel⟩
  have keyed : ((build c before).get? "a").isSome := by
    rw [get?, ← OrderedMap.mem_keys_iff, mem_keys_build]
    exact ⟨_, indexed, by decide +kernel⟩
  have listed : fact "a: x" eight ∈ (build c before).allProperties worldType := by
    rw [allProperties, if_pos rfl, ownedBy_build]
    exact List.mem_filter.2 ⟨indexed, by decide +kernel⟩
  obtain ⟨admitted, present, count, sublist⟩ := raised_version_keeps c (some "win") "8" "9.0" raised
  exact ⟨raised, shown, admitted eight shown, keyed, present _ keyed, count, listed, sublist.subset listed⟩

end Index

end InventoryQuery
