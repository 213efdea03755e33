import InventoryQuery.Proofs.Text.Cutting
import InventoryQuery.Text.Span

/-! What stands outside the double quotes of a text, and where it stands. -/

namespace InventoryQuery

/-- The characters outside double quotes, where `inside` says whether a quote was open before. -/
def outside : (inside : Bool) → List Char → List Char
  | _, [] => []
  | inside, c :: cs =>
    if c = '"' then outside (!inside) cs
    else if inside then outside inside cs
    else c :: outside inside cs

theorem outside_append (inside : Bool) (xs ys : List Char) :
    outside inside (xs ++ ys) = outside inside xs ++ outside (quoteOpen inside xs) ys := by
  induction xs generalizing inside with
  | nil => rfl
  | cons c xs ih =>
    by_cases quote : c = '"'
    · subst quote
      have opened : quoteOpen inside ('"' :: xs) = quoteOpen (!inside) xs := by cases inside <;> rfl
      simp only [List.cons_append, outside, if_true, ih, opened]
    · simp only [List.cons_append, outside, if_neg quote, ih, quoteOpen_cons_of_ne (Ne.symm quote)]
      split <;> rfl

/-- What is left out of a text besides quotes makes no difference to the rest. -/
theorem outside_filter {p : Char → Bool} (hp : p '"') (inside : Bool) (cs : List Char) :
    outside inside (cs.filter p) = (outside inside cs).filter p := by
  induction cs generalizing inside with
  | nil => rfl
  | cons c cs ih =>
    by_cases quote : c = '"'
    · subst quote
      simp only [List.filter_cons_of_pos hp, outside, if_true, ih]
    · by_cases hc : p c
      · simp only [List.filter_cons_of_pos hc, outside, if_neg quote]
        split
        · exact ih inside
        · rw [List.filter_cons_of_pos hc, ih]
      · simp only [List.filter_cons_of_neg hc, outside, if_neg quote]
        split
        · exact ih inside
        · rw [List.filter_cons_of_neg hc, ih]

theorem quoteOpen_filter {p : Char → Bool} (hp : p '"') (inside : Bool) (cs : List Char) :
    quoteOpen inside (cs.filter p) = quoteOpen inside cs := by
  induction cs generalizing inside with
  | nil => rfl
  | cons c cs ih =>
    by_cases hc : p c
    · rw [List.filter_cons_of_pos hc]
      exact ih _
    · have quote : '"' ≠ c := by
        rintro rfl
        exact hc hp
      rw [List.filter_cons_of_neg hc, quoteOpen_cons_of_ne quote, ih]

theorem mem_of_mem_outside {inside : Bool} {c : Char} {cs : List Char}
    (h : c ∈ outside inside cs) : c ∈ cs := by
  induction cs generalizing inside with
  | nil => exact h
  | cons d cs ih => simp only [outside] at h; grind

theorem count_outside_of_not_mem {c : Char} {cs : List Char} (h : c ∉ cs) (inside : Bool) :
    (outside inside cs).count c = 0 := List.count_eq_zero.2 (mt mem_of_mem_outside h)

theorem outside_of_not_mem {cs : List Char} (h : '"' ∉ cs) : outside false cs = cs := by
  induction cs with
  | nil => rfl
  | cons c cs ih =>
    obtain ⟨hc, hcs⟩ := not_or.1 (mt List.mem_cons.2 h)
    simp only [outside, if_neg (Ne.symm hc), ih hcs, Bool.false_eq_true, if_false]

/-- Nothing of a string is outside it. -/
theorem outside_string {body : List Char} (h : '"' ∉ body) :
    outside false ('"' :: (body ++ ['"'])) = [] := by
  have opened : outside false ('"' :: (body ++ ['"'])) = outside true (body ++ ['"']) := rfl
  rw [opened]
  induction body with
  | nil => rfl
  | cons c body ih =>
    obtain ⟨hc, hb⟩ := not_or.1 (mt List.mem_cons.2 h)
    rw [List.cons_append, outside, if_neg (Ne.symm hc), if_pos rfl]
    exact ih hb rfl

/-- The bytes at which `x` stands outside double quotes, in a text that starts at byte `offset`. -/
def places (x : Char) : (inside : Bool) → (offset : Nat) → List Char → List Nat
  | _, _, [] => []
  | inside, offset, c :: cs =>
    if c = '"' then places x (!inside) (offset + c.utf8Size) cs
    else if !inside && c = x then offset :: places x inside (offset + c.utf8Size) cs
    else places x inside (offset + c.utf8Size) cs

theorem places_append (x : Char) (inside : Bool) (offset : Nat) (xs ys : List Char) :
    places x inside offset (xs ++ ys) =
      places x inside offset xs ++ places x (quoteOpen inside xs) (offset + byteSize xs) ys := by
  induction xs generalizing inside offset with
  | nil => rfl
  | cons c xs ih =>
    rw [byteSize_cons, ← Nat.add_assoc]
    by_cases quote : c = '"'
    · subst quote
      have opened : quoteOpen inside ('"' :: xs) = quoteOpen (!inside) xs := by cases inside <;> rfl
      simp only [List.cons_append, places, if_true, ih, opened]
    · simp only [List.cons_append, places, if_neg quote, ih, quoteOpen_cons_of_ne (Ne.symm quote)]
      split <;> rfl

theorem length_places {x : Char} (hx : x ≠ '"') (inside : Bool) (offset : Nat) (cs : List Char) :
    (places x inside offset cs).length = (outside inside cs).count x := by
  induction cs generalizing inside offset with
  | nil => rfl
  | cons c cs ih =>
    by_cases quote : c = '"'
    · simp only [places, outside, if_pos quote, ih]
    by_cases same : c = x
    · subst same
      cases inside <;> simp [places, outside, quote, ih]
    · cases inside <;> simp [places, outside, quote, same, ih]

theorem places_eq_nil {x : Char} (hx : x ≠ '"') {inside : Bool} {cs : List Char}
    (h : (outside inside cs).count x = 0) (offset : Nat) : places x inside offset cs = [] :=
  List.eq_nil_of_length_eq_zero ((length_places hx inside offset cs).trans h)

theorem le_of_mem_places {x : Char} {inside : Bool} {offset i : Nat} {cs : List Char}
    (h : i ∈ places x inside offset cs) : offset ≤ i := by
  induction cs generalizing inside offset with
  | nil => cases h
  | cons c cs ih =>
    rw [places] at h
    split at h
    · exact Nat.le_of_add_right_le (ih h)
    split at h
    · rcases List.mem_cons.1 h with rfl | h
      · exact Nat.le_refl _
      · exact Nat.le_of_add_right_le (ih h)
    · exact Nat.le_of_add_right_le (ih h)

/-- Places come in the order of the text. -/
theorem pairwise_places (x : Char) (inside : Bool) (offset : Nat) (cs : List Char) :
    (places x inside offset cs).Pairwise (· < ·) := by
  induction cs generalizing inside offset with
  | nil => exact .nil
  | cons c cs ih =>
    have size : 0 < c.utf8Size := Char.utf8Size_pos c
    rw [places]
    split
    · exact ih _ _
    split
    · refine .cons (fun i hi => ?_) (ih _ _)
      have := le_of_mem_places hi
      omega
    · exact ih _ _

end InventoryQuery
