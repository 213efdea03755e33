import Mathlib.Data.List.Infix
import Mathlib.Data.Nat.Find
import InventoryQuery.Cursor.Splice
import InventoryQuery.Proofs.Text.Cutting

/-! The word at the cursor. A boundary is looked for backwards from the cursor, and forwards; what lies
between the two is the word that is cut out, and all the rest of the text stays as it is. -/

namespace InventoryQuery.Cursor

variable {boundaries text pre word post : List Char} {offset byte : Nat}

def IsCharBoundary (text : List Char) (byte : Nat) : Prop := ∃ before ∈ text.inits, byteSize before = byte

instance (text : List Char) : DecidablePred (IsCharBoundary text) :=
  fun byte => inferInstanceAs (Decidable (∃ before ∈ text.inits, byteSize before = byte))

/-- The offset, or the end of the text if that comes first, moved back to the start of a character. -/
def cursor (text : List Char) (offset : Nat) : Nat :=
  Nat.findGreatest (IsCharBoundary text) (min offset (byteSize text))

theorem cursor_le (text : List Char) (offset : Nat) : cursor text offset ≤ offset :=
  Nat.le_trans (Nat.findGreatest_le _) (Nat.min_le_left _ _)

theorem splitAtByte_byteSize (u v : List Char) : splitAtByte (byteSize u) (u ++ v) = (u, v) := by
  induction u with
  | nil =>
    cases v with
    | nil => rfl
    | cons c v =>
      have := Char.utf8Size_pos c
      rw [List.nil_append, byteSize_nil, splitAtByte, if_neg (by omega)]
  | cons c u ih =>
    rw [List.cons_append, byteSize_cons, splitAtByte, if_pos (Nat.le_add_right _ _),
      Nat.add_sub_cancel_left, ih]

/-- Everything before a byte is there when the text is cut behind it. -/
theorem splitAtByte_of_le {u v : List Char} (h : byteSize u ≤ offset) :
    ∃ w, (splitAtByte offset (u ++ v)).1 = u ++ w := by
  induction u generalizing offset with
  | nil => exact ⟨_, rfl⟩
  | cons c u ih =>
    rw [byteSize_cons] at h
    have later : byteSize u ≤ offset - c.utf8Size := by omega
    obtain ⟨w, hw⟩ := ih later
    refine ⟨w, ?_⟩
    rw [List.cons_append, splitAtByte, if_pos (by omega)]
    simp [hw]

/-- A text is cut within its first part if the byte is no further on. -/
theorem splitAtByte_within {w v : List Char} (h : offset ≤ byteSize w) :
    ∃ x y, w = x ++ y ∧ splitAtByte offset (w ++ v) = (x, y ++ v) := by
  induction w generalizing offset with
  | nil =>
    obtain rfl : offset = 0 := Nat.le_zero.1 h
    exact ⟨[], [], rfl, splitAtByte_byteSize [] v⟩
  | cons c w ih =>
    rw [byteSize_cons] at h
    by_cases fits : c.utf8Size ≤ offset
    · have later : offset - c.utf8Size ≤ byteSize w := by omega
      obtain ⟨x, y, rfl, hxy⟩ := ih later
      refine ⟨c :: x, y, rfl, ?_⟩
      rw [List.cons_append, splitAtByte, if_pos fits, hxy]
    · refine ⟨[], c :: w, rfl, ?_⟩
      rw [List.cons_append, splitAtByte, if_neg fits]

theorem byteSize_splitAtByte_le (offset : Nat) (text : List Char) :
    byteSize (splitAtByte offset text).1 ≤ offset := by
  induction text generalizing offset with
  | nil => exact Nat.zero_le _
  | cons c cs ih =>
    rw [splitAtByte]
    split
    · have := ih (offset - c.utf8Size)
      simp only [byteSize_cons]
      omega
    · exact Nat.zero_le _

/-- The text is cut at the cursor. -/
theorem cursor_eq (text : List Char) (offset : Nat) :
    cursor text offset = byteSize (splitAtByte offset text).1 := by
  have whole := splitAtByte_append offset text
  have size := congrArg byteSize whole
  rw [byteSize_append] at size
  refine Nat.findGreatest_eq_iff.2 ⟨?_, fun _ => ⟨_, ?_, rfl⟩, ?_⟩
  · have := byteSize_splitAtByte_le offset text
    omega
  · exact (List.mem_inits _ _).2 ⟨_, whole⟩
  · rintro byte further le ⟨before, hb, rfl⟩
    obtain ⟨after, rfl⟩ := (List.mem_inits _ _).1 hb
    obtain ⟨w, hw⟩ := splitAtByte_of_le (v := after) (Nat.le_trans le (Nat.min_le_left _ _))
    rw [hw, byteSize_append] at further
    omega

theorem cursor_byteSize (u v : List Char) : cursor (u ++ v) (byteSize u) = byteSize u := by
  rw [cursor_eq, splitAtByte_byteSize]

theorem splitAtByte_cursor (text : List Char) (offset : Nat) :
    splitAtByte (cursor text offset) text = splitAtByte offset text := by
  have cut := splitAtByte_byteSize (splitAtByte offset text).1 (splitAtByte offset text).2
  rwa [splitAtByte_append, ← cursor_eq] at cut

/-- The text is the word at the byte with what stands before and behind it. -/
structure Cut (boundaries text : List Char) (byte : Nat) (pre word post : List Char) : Prop where
  whole : text = pre ++ (word ++ post)
  inner : ∀ c ∈ word, c ∉ boundaries
  before : pre = [] ∨ ∃ b ∈ boundaries, pre.getLast? = some b
  behind : post = [] ∨ ∃ b ∈ boundaries, post.head? = some b
  start : byteSize pre ≤ byte
  stop : byte ≤ byteSize pre + byteSize word

theorem fromNextBoundary_append (hw : ∀ c ∈ word, c ∉ boundaries)
    (hp : post = [] ∨ ∃ b ∈ boundaries, post.head? = some b) :
    fromNextBoundary boundaries (word ++ post) = post := by
  refine dropWhile_run (by simpa using hw) fun d hd => ?_
  rcases hp with rfl | ⟨b, hb, head⟩
  · cases hd
  · cases hd.symm.trans head
    simpa using hb

theorem upToLastBoundary_append (hw : ∀ c ∈ word, c ∉ boundaries)
    (hp : pre = [] ∨ ∃ b ∈ boundaries, pre.getLast? = some b) :
    upToLastBoundary boundaries (pre ++ word) = pre := by
  have mirrored : fromNextBoundary boundaries (word.reverse ++ pre.reverse) = pre.reverse :=
    fromNextBoundary_append (by simpa using hw) (by simpa [List.head?_reverse] using hp)
  rw [← List.reverse_append] at mirrored
  exact (congrArg List.reverse mirrored).trans (List.reverse_reverse pre)

/-- There is a word at every place where the text can be cut. -/
theorem exists_cut (boundaries before after : List Char) :
    ∃ pre word post, Cut boundaries (before ++ after) (byteSize before) pre word post := by
  have stops {rest : List Char} (h : ∀ d ∈ rest.head?, ¬ (!boundaries.contains d) = true) :
      rest = [] ∨ ∃ b ∈ boundaries, rest.head? = some b := by
    cases rest with
    | nil => exact .inl rfl
    | cons b rest => exact .inr ⟨b, by simpa using h b rfl, rfl⟩
  obtain ⟨front, pre, hpre, clean, last⟩ := exists_run (!boundaries.contains ·) before.reverse
  obtain ⟨back, post, rfl, clean', first⟩ := exists_run (!boundaries.contains ·) after
  obtain rfl : before = pre.reverse ++ front.reverse := by rw [← List.reverse_append, ← hpre, List.reverse_reverse]
  refine ⟨pre.reverse, front.reverse ++ back, post, by simp, ?_, ?_, stops first, ?_, ?_⟩
  · intro c hc
    rcases List.mem_append.1 hc with hc | hc
    · simpa using clean c (List.mem_reverse.1 hc)
    · simpa using clean' c hc
  · simpa [List.getLast?_reverse] using stops last
  · simp
  · simp only [byteSize_append]
    omega

namespace Cut

theorem splits (h : Cut boundaries text byte pre word post) :
    ∃ x y, word = x ++ y ∧ splitAtByte byte text = (pre ++ x, y ++ post) := by
  have inside : byte ≤ byteSize (pre ++ word) := by rw [byteSize_append]; exact h.stop
  obtain ⟨front, y, hf, cut⟩ := splitAtByte_within (v := post) inside
  rw [List.append_assoc, ← h.whole] at cut
  obtain ⟨x, hx⟩ := splitAtByte_of_le (v := word ++ post) h.start
  rw [← h.whole, cut] at hx
  obtain rfl : front = pre ++ x := hx
  rw [List.append_assoc] at hf
  exact ⟨x, y, List.append_cancel_left hf, cut⟩

/-- A marker takes the place of the word. -/
theorem splice (h : Cut boundaries text (cursor text offset) pre word post) :
    splice text offset boundaries = ⟨pre ++ marker :: post, countMarkers false pre⟩ := by
  obtain ⟨x, y, rfl, cut⟩ := h.splits
  rw [splitAtByte_cursor] at cut
  rw [Cursor.splice, cut]
  simp only [upToLastBoundary_append (fun c hc => h.inner c (List.mem_append_left _ hc)) h.before,
    fromNextBoundary_append (fun c hc => h.inner c (List.mem_append_right _ hc)) h.behind]

/-- The marker is a word itself. -/
theorem again (h : Cut boundaries text byte pre word post) (hm : marker ∉ boundaries) :
    Cut boundaries (pre ++ marker :: post) (byteSize pre) pre [marker] post :=
  ⟨rfl, by simpa using hm, h.before, h.behind, Nat.le_refl _, Nat.le_add_right _ _⟩

end Cut

/-- How many markers have an even number of quotes before them. -/
def markersOutside (text : List Char) : Nat :=
  (List.range text.length).countP fun i => text[i]? = some marker ∧ (text.take i).count '"' % 2 = 0

theorem countMarkers_eq_countP (inside : Bool) (cs : List Char) :
    countMarkers inside cs =
      (List.range cs.length).countP fun i => cs[i]? = some marker ∧ quoteOpen inside (cs.take i) = false := by
  induction cs generalizing inside with
  | nil => rfl
  | cons c cs ih =>
    have later : countMarkers (inside ^^ (c == '"')) cs = (List.range cs.length).countP fun i =>
        (c :: cs)[i + 1]? = some marker ∧ quoteOpen inside ((c :: cs).take (i + 1)) = false := ih _
    rw [List.length_cons, List.range_succ_eq_map, List.countP_cons, List.countP_map]
    simp only [Function.comp_def, Nat.succ_eq_add_one, ← later, countMarkers]
    by_cases quote : c = '"'
    · subst quote
      cases inside <;> rfl
    · have other : (c == '"') = false := beq_false_of_ne quote
      cases inside <;> simp [quote, other, quoteOpen, Nat.add_comm]

theorem countMarkers_false (cs : List Char) : countMarkers false cs = markersOutside cs := by
  rw [countMarkers_eq_countP, markersOutside]
  refine List.countP_congr fun i _ => ?_
  rw [quoteOpen_eq_count]
  simp

/-- What is cut out is the word at the cursor, and the markers before it are counted outside double
quotes. So it does not matter where in the word the cursor is, and to cut at the marker changes
nothing. -/
theorem splice_exact (boundaries text : List Char) (offset : Nat) :
    ∃ pre word post, Cut boundaries text (cursor text offset) pre word post ∧
      splice text offset boundaries = ⟨pre ++ marker :: post, markersOutside pre⟩ ∧
      (∀ other, byteSize pre ≤ cursor text other → cursor text other ≤ byteSize pre + byteSize word →
        splice text other boundaries = splice text offset boundaries) ∧
      (marker ∉ boundaries →
        splice (pre ++ marker :: post) (byteSize pre) boundaries = splice text offset boundaries) := by
  have whole := splitAtByte_append offset text
  obtain ⟨pre, word, post, cut⟩ := exists_cut boundaries (splitAtByte offset text).1 (splitAtByte offset text).2
  rw [whole, ← cursor_eq] at cut
  refine ⟨pre, word, post, cut, ?_, fun other start stop => ?_, fun hm => ?_⟩
  · rw [cut.splice, countMarkers_false]
  · have same : Cut boundaries text (cursor text other) pre word post := { cut with start, stop }
    rw [same.splice, cut.splice]
  · have again := cut.again hm
    rw [← cursor_byteSize pre (marker :: post)] at again
    rw [again.splice, cut.splice]

/-- Offsets inside a character and behind the end, and a word at the end of the text. -/
example : (List.range 9).map (fun offset => splice "a éb".toList offset [' ']) =
    [⟨"? éb".toList, 0⟩, ⟨"? éb".toList, 0⟩] ++ List.replicate 7 ⟨"a ?".toList, 0⟩ := by
  decide +kernel

end InventoryQuery.Cursor
