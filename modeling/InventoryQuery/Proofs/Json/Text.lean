import InventoryQuery.Json.Text
import InventoryQuery.Proofs.Json.Reading

/-! A written string reads back as itself. A character is written as an escape, which stands for its
bytes, or as it is; then none of its bytes is a quote, a backslash or a control, since in UTF-8 all
bytes of a character beyond ASCII are large. -/

namespace InventoryQuery.Json

open String (utf8EncodeChar)

def bytes (s : String) : List UInt8 := s.toUTF8.data.toList

theorem bytes_ofList (cs : List Char) : bytes (String.ofList cs) = cs.flatMap utf8EncodeChar := by
  rw [bytes, String.toUTF8_eq_toByteArray, String.toByteArray_ofList, List.utf8Encode, List.data_toByteArray]

theorem bytes_eq (s : String) : bytes s = s.toList.flatMap utf8EncodeChar := by
  rw [← bytes_ofList, String.ofList_toList]

theorem bytes_append (s t : String) : bytes (s ++ t) = bytes s ++ bytes t := by
  rw [bytes_eq, String.toList_append, List.flatMap_append, ← bytes_eq, ← bytes_eq]

theorem fromUTF8?_bytes (s : String) : String.fromUTF8? ⟨(bytes s).toArray⟩ = some s := by
  have same : (⟨(bytes s).toArray⟩ : ByteArray) = s.toByteArray := rfl
  rw [same, String.fromUTF8?, dif_pos s.isValidUTF8]
  rfl

def Plain (b : UInt8) : Prop := b ≠ quote ∧ b ≠ backslash ∧ isControl b = false

theorem stringBytes_plain {b : UInt8} (h : Plain b) (rest : List UInt8) :
    stringBytes (b :: rest) = (stringBytes rest).map fun r => (b :: r.1, r.2) := by
  rw [stringBytes.eq_def]
  dsimp only
  rw [if_neg h.1, if_neg h.2.1, if_neg (by rw [h.2.2]; decide)]

theorem stringBytes_run {bs : List UInt8} (h : ∀ b ∈ bs, Plain b) (rest : List UInt8) :
    stringBytes (bs ++ rest) = (stringBytes rest).map fun r => (bs ++ r.1, r.2) := by
  induction bs with
  | nil =>
    rw [List.nil_append]
    rcases stringBytes rest with _ | _ <;> rfl
  | cons b bs ih =>
    rw [List.cons_append, stringBytes_plain (h b (by simp)), ih fun b hb => h b (by simp [hb])]
    rcases stringBytes rest with _ | _ <;> rfl

theorem stringBytes_simple {e b : UInt8} (h : simpleEscape? e = some b) (rest : List UInt8) :
    stringBytes (backslash :: e :: rest) = (stringBytes rest).map fun r => (b :: r.1, r.2) := by
  have letter : e ≠ ascii 'u' := by
    rintro rfl
    rw [show simpleEscape? (ascii 'u') = none by decide] at h
    cases h
  rw [stringBytes.eq_def]
  dsimp only
  rw [if_neg (by decide), if_pos rfl, if_neg letter, h]

theorem stringBytes_unit {w x y z : UInt8} {n : Nat} (h : unit? w x y z = some n) (ht : isTrailing n = false)
    (hl : isLeading n = false) (rest : List UInt8) :
    stringBytes (backslash :: ascii 'u' :: w :: x :: y :: z :: rest) =
      (stringBytes rest).map fun r => (encoded n ++ r.1, r.2) := by
  rw [stringBytes.eq_def]
  dsimp only
  rw [if_neg (by decide), if_pos rfl, if_pos rfl, h]
  dsimp only
  rw [if_neg (by rw [ht]; decide), if_neg (by rw [hl]; decide)]

theorem plain_ofNat {n : Nat} (visible : 32 ≤ n) (byte : n < 256) (hq : n ≠ 34) (hb : n ≠ 92) : Plain (UInt8.ofNat n) := by
  have value : (UInt8.ofNat n).toNat = n := UInt8.toNat_ofNat_of_lt byte
  refine ⟨fun h => hq ?_, fun h => hb ?_, ?_⟩
  · rw [← value, h]
    decide
  · rw [← value, h]
    decide
  · rw [isControl, decide_eq_false_iff_not, UInt8.lt_iff_toNat_lt, value]
    exact Nat.not_lt.2 visible

theorem plain_utf8EncodeChar {c : Char} (hq : c ≠ '"') (hb : c ≠ '\\') (hc : ¬ c < ' ') :
    ∀ b ∈ utf8EncodeChar c, Plain b := by
  have quote : c.val.toNat ≠ 34 := fun h => hq (Char.ext (UInt32.toNat_inj.1 h))
  have backslash : c.val.toNat ≠ 92 := fun h => hb (Char.ext (UInt32.toNat_inj.1 h))
  have visible : 32 ≤ c.val.toNat := Nat.not_lt.1 hc
  intro b mem
  unfold utf8EncodeChar at mem
  dsimp only at mem
  split at mem
  · rw [List.mem_singleton.1 mem]
    exact plain_ofNat visible (by omega) quote backslash
  · -- every byte of a longer encoding has its highest bit set
    have large : ∃ n, 128 ≤ n ∧ n < 256 ∧ b = UInt8.ofNat n := by
      split at mem
      · simp only [List.mem_cons, List.not_mem_nil, or_false] at mem
        rcases mem with rfl | rfl <;> exact ⟨_, by omega, by omega, rfl⟩
      split at mem
      · simp only [List.mem_cons, List.not_mem_nil, or_false] at mem
        rcases mem with rfl | rfl | rfl <;> exact ⟨_, by omega, by omega, rfl⟩
      · simp only [List.mem_cons, List.not_mem_nil, or_false] at mem
        rcases mem with rfl | rfl | rfl | rfl <;> exact ⟨_, by omega, by omega, rfl⟩
    obtain ⟨n, low, high, rfl⟩ := large
    exact plain_ofNat (by omega) high (by omega) (by omega)

def fourUnit? : List UInt8 → Option Nat
  | [w, x, y, z] => unit? w x y z
  | _ => none

theorem fourUnit?_fourHexDigits :
    ∀ n < 32, fourUnit? ((fourHexDigits n).flatMap utf8EncodeChar) = some n := by
  decide +kernel

theorem stringBytes_control {c : Char} (h : c < ' ') (rest : List UInt8) :
    stringBytes ((['\\', 'u'] ++ fourHexDigits c.toNat).flatMap utf8EncodeChar ++ rest) =
      (stringBytes rest).map fun r => (utf8EncodeChar c ++ r.1, r.2) := by
  have small : c.toNat < 32 := h
  have read := fourUnit?_fourHexDigits c.toNat small
  unfold fourUnit? at read
  split at read
  · rename_i w x y z written
    have trailing : isTrailing c.toNat = false := by
      simp only [isTrailing, Bool.and_eq_false_iff, decide_eq_false_iff_not]
      omega
    have leading : isLeading c.toNat = false := by
      simp only [isLeading, Bool.and_eq_false_iff, decide_eq_false_iff_not]
      omega
    rw [List.flatMap_append, written]
    exact (stringBytes_unit read trailing leading rest).trans (by rw [encoded, Char.ofNat_toNat])
  · cases read

theorem stringBytes_writtenChar (c : Char) (rest : List UInt8) :
    stringBytes ((writtenChar c).flatMap utf8EncodeChar ++ rest) =
      (stringBytes rest).map fun r => (utf8EncodeChar c ++ r.1, r.2) := by
  unfold writtenChar
  iterate 7
    split
    · subst_vars
      exact stringBytes_simple (by decide) rest
  split
  · rename_i h
    exact stringBytes_control h rest
  · rw [List.flatMap_singleton]
    exact stringBytes_run (plain_utf8EncodeChar (by assumption) (by assumption) (by assumption)) rest

def escaped (s : String) : List UInt8 := s.toList.flatMap fun c => (writtenChar c).flatMap utf8EncodeChar

theorem bytes_writeString (s : String) : bytes (writeString s) = quote :: (escaped s ++ [quote]) := by
  rw [writeString, bytes_ofList, List.flatMap_append, List.flatMap_cons, List.flatMap_assoc]
  rfl

theorem stringBytes_escaped (s : String) (rest : List UInt8) :
    stringBytes (escaped s ++ quote :: rest) = .ok (bytes s, rest) := by
  have closed : stringBytes (quote :: rest) = .ok ([], rest) := by
    rw [stringBytes.eq_def]
    exact if_pos rfl
  rw [escaped, bytes_eq]
  induction s.toList with
  | nil => exact closed
  | cons c cs ih =>
    rw [List.flatMap_cons, List.append_assoc, stringBytes_writtenChar, ih]
    rfl

theorem reads_stringRest (s : String) (rest : List UInt8) : Reads stringRest (escaped s ++ quote :: rest) s rest := by
  unfold Reads stringRest
  rw [stringBytes_escaped]
  dsimp only
  rw [fromUTF8?_bytes]

theorem reads_string (s : String) (rest : List UInt8) : Reads string (bytes (writeString s) ++ rest) s rest := by
  rw [bytes_writeString, List.cons_append, List.append_assoc]
  refine (reads_peekToken (by decide) _).bind ?_
  rw [if_pos rfl]
  exact (reads_advance quote _).bind (reads_stringRest s rest)

end InventoryQuery.Json
