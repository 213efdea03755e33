import InventoryQuery.Proofs.Text.Cutting
import InventoryQuery.Text.Quoted

/-! Where a quoted text ends, and what it is, can be told whatever follows it. A character stands for
itself or begins with a backslash, two escapes are different after the backslash, and none of them
begins with the quote that ends the text. -/

namespace InventoryQuery

/-- Codes that can be told apart, one after the other up to a character that none of them begins
with. -/
theorem flatMap_append_inj {α : Type} {code : α → List Char} {z : Char}
    (starts : ∀ a, ∃ c w, code a = c :: w ∧ c ≠ z) {as bs : List α}
    (told : ∀ a ∈ as, ∀ b ∈ bs, ∀ u v, code a ++ u = code b ++ v → a = b ∧ u = v) {u v : List Char}
    (h : as.flatMap code ++ z :: u = bs.flatMap code ++ z :: v) : as = bs ∧ u = v := by
  have differ (a : α) (u v : List Char) : code a ++ u ≠ z :: v := by
    obtain ⟨c, w, hc, hz⟩ := starts a
    rw [hc]
    exact fun same => hz (List.cons_eq_cons.1 same).1
  induction as generalizing bs with
  | nil =>
    cases bs with
    | nil => exact ⟨rfl, (List.cons_eq_cons.1 h).2⟩
    | cons b bs =>
      rw [List.flatMap_cons, List.append_assoc] at h
      exact absurd h.symm (differ _ _ _)
  | cons a as ih =>
    cases bs with
    | nil =>
      rw [List.flatMap_cons, List.append_assoc] at h
      exact absurd h (differ _ _ _)
    | cons b bs =>
      rw [List.flatMap_cons, List.flatMap_cons, List.append_assoc, List.append_assoc] at h
      obtain ⟨rfl, rest⟩ := told a List.mem_cons_self b List.mem_cons_self _ _ h
      obtain ⟨rfl, same⟩ := ih (fun a ha b hb =>
        told a (List.mem_cons_of_mem _ ha) b (List.mem_cons_of_mem _ hb)) rest
      exact ⟨rfl, same⟩

def hexDigits : List Char := "0123456789abcdef".toList

def hexValue (ds : List Char) : Nat := ds.foldl (fun n d => 16 * n + hexDigits.idxOf d) 0

theorem digitChar_hex : ∀ n < 16, n.digitChar ∈ hexDigits ∧ hexDigits.idxOf n.digitChar = n := by
  decide +kernel

theorem toDigits_hex (n : Nat) :
    (∀ d ∈ Nat.toDigits 16 n, d ∈ hexDigits) ∧ hexValue (Nat.toDigits 16 n) = n := by
  induction n using Nat.strongRecOn with
  | ind n ih =>
    rw [Nat.toDigits_eq_if (by decide)]
    split
    · rename_i small
      obtain ⟨digit, value⟩ := digitChar_hex n small
      exact ⟨by simpa using digit, by simpa [hexValue] using value⟩
    · rename_i large
      obtain ⟨digits, value⟩ := ih (n / 16) (by omega)
      obtain ⟨digit, last⟩ := digitChar_hex (n % 16) (Nat.mod_lt n (by decide))
      refine ⟨fun d hd => ?_, ?_⟩
      · rcases List.mem_append.1 hd with hd | hd
        · exact digits d hd
        · exact List.mem_singleton.1 hd ▸ digit
      · rw [hexValue] at value ⊢
        rw [List.foldl_append, value, List.foldl_cons, last, List.foldl_nil, Nat.div_add_mod]

theorem codePointEscape_append_inj {c d : Char} {u v : List Char}
    (h : codePointEscape c ++ u = codePointEscape d ++ v) : c = d ∧ u = v := by
  have digits (c : Char) : ∀ x ∈ Nat.toDigits 16 c.toNat, (fun x => decide (x ∈ hexDigits)) x :=
    fun x hx => decide_eq_true ((toDigits_hex _).1 x hx)
  have brace (w : List Char) : ∀ x ∈ ('\x7d' :: w).head?, ¬ (fun x => decide (x ∈ hexDigits)) x := by
    rintro _ ⟨⟩
    decide
  have after : Nat.toDigits 16 c.toNat ++ '\x7d' :: u = Nat.toDigits 16 d.toNat ++ '\x7d' :: v := by
    simpa [codePointEscape] using h
  obtain ⟨same, rest⟩ := run_append_inj (digits c) (digits d) (brace u) (brace v) after
  refine ⟨Char.toNat_inj.1 ?_, (List.cons_eq_cons.1 rest).2⟩
  rw [← (toDigits_hex c.toNat).2, same, (toDigits_hex d.toNat).2]

def namedEscapes : List (Char × Char) :=
  [('\x00', '0'), ('\t', 't'), ('\r', 'r'), ('\n', 'n'), ('\\', '\\'), ('"', '"')]

inductive QuotedAs (c : Char) : List Char → Prop
  | plain : c ≠ '\\' → c ≠ '"' → QuotedAs c [c]
  | named {k : Char} : (c, k) ∈ namedEscapes → QuotedAs c ['\\', k]
  | codePoint : QuotedAs c (codePointEscape c)

theorem quotedAs_quotedChar (c : Char) : QuotedAs c (quotedChar c) := by
  unfold quotedChar
  split_ifs with _ _ _ _ backslash quote
  any_goals subst c; exact .named (by decide)
  · exact .plain backslash quote
  · exact .codePoint
  · exact .plain backslash quote

/-- Escapes are named by different characters, none of which announces a code point. -/
theorem namedEscapes_inj : ∀ p ∈ namedEscapes, p.2 ≠ 'u' ∧ ∀ q ∈ namedEscapes, p.2 = q.2 → p = q := by
  decide

theorem quotedChar_starts (c : Char) : ∃ d w, quotedChar c = d :: w ∧ d ≠ '"' := by
  have form := quotedAs_quotedChar c
  generalize quotedChar c = x at form ⊢
  cases form with
  | plain _ quote => exact ⟨c, [], rfl, quote⟩
  | named => exact ⟨'\\', _, rfl, by decide⟩
  | codePoint => exact ⟨'\\', _, rfl, by decide⟩

theorem quotedChar_append_inj {c d : Char} {u v : List Char}
    (h : quotedChar c ++ u = quotedChar d ++ v) : c = d ∧ u = v := by
  have left := quotedAs_quotedChar c
  have right := quotedAs_quotedChar d
  generalize quotedChar c = x at h left
  generalize quotedChar d = y at h right
  cases left with
  | plain backslash _ =>
    cases right with
    | plain => exact List.cons_eq_cons.1 h
    | named | codePoint => exact absurd (List.cons_eq_cons.1 h).1 backslash
  | named key =>
    cases right with
    | plain backslash _ => exact absurd (List.cons_eq_cons.1 h).1.symm backslash
    | named key' =>
      obtain ⟨same, rest⟩ := List.cons_eq_cons.1 (List.cons_eq_cons.1 h).2
      exact ⟨congrArg Prod.fst ((namedEscapes_inj _ key).2 _ key' same), rest⟩
    | codePoint =>
      exact absurd (List.cons_eq_cons.1 (List.cons_eq_cons.1 h).2).1 (namedEscapes_inj _ key).1
  | codePoint =>
    cases right with
    | plain backslash _ => exact absurd (List.cons_eq_cons.1 h).1.symm backslash
    | named key =>
      exact absurd (List.cons_eq_cons.1 (List.cons_eq_cons.1 h).2).1.symm (namedEscapes_inj _ key).1
    | codePoint => exact codePointEscape_append_inj h

/-- A text that begins with a quoted text begins with no other one. -/
theorem quoted_append_inj {s t : String} {u v : List Char}
    (h : (quoted s).toList ++ u = (quoted t).toList ++ v) : s = t ∧ u = v := by
  have inside : s.toList.flatMap quotedChar ++ '"' :: u = t.toList.flatMap quotedChar ++ '"' :: v := by
    simpa [quoted] using h
  obtain ⟨same, rest⟩ := flatMap_append_inj quotedChar_starts
    (fun _ _ _ _ _ _ => quotedChar_append_inj) inside
  exact ⟨String.toList_inj.1 same, rest⟩

end InventoryQuery
