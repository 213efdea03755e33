import InventoryQuery.Proofs.Keyword.Pass
import InventoryQuery.Proofs.Token.Form

/-! Texts that differ in the blanks between their words only. Read from the left, they have the same
characters, except that blanks may stand for other blanks outside double quotes, and that next to a
boundary there may be any number of blanks on either side. Behind a character that is no boundary
there are blanks in both texts or in neither, so every word of the one is a word of the other. -/

namespace InventoryQuery

open Lexeme

/-- Outside quotes and no boundary, so a part of a word or of a sign. -/
def Inner (c : Char) : Prop := isBoundary c = false ∧ c ≠ '"'

instance (c : Char) : Decidable (Inner c) := inferInstanceAs (Decidable (_ ∧ _))

theorem isBoundary_of_isBlank {c : Char} (h : isBlank c) : isBoundary c := by simp [isBoundary, h]

theorem isBoundary_of_isSpace {c : Char} (h : isSpace c) : isBoundary c :=
  isBoundary_of_isBlank (isBlank_of_isSpace h)

theorem ne_quote_of_isBoundary {c : Char} (h : isBoundary c) : c ≠ '"' := by
  rintro rfl
  exact absurd h (by decide)

theorem freshAfter_append_singleton (fresh : Bool) (cs : List Char) (b : Char) :
    freshAfter fresh (cs ++ [b]) = isBoundary b := by
  rw [freshAfter, List.foldl_append]
  rfl

/-- `inString` says that the texts are continued within double quotes, `fresh` that a boundary was the
last character before them. A quote that is never closed hides all that comes after it. -/
inductive Respaced : (inString fresh : Bool) → List Char → List Char → Prop
  | nil {inString fresh : Bool} : Respaced inString fresh [] []
  | char {inString fresh : Bool} {cs ds : List Char} (c : Char) :
    Respaced (inString ^^ (c == '"')) (isBoundary c) cs ds → Respaced inString fresh (c :: cs) (c :: ds)
  | blank {fresh : Bool} {c d : Char} {cs ds : List Char} : isSpace c → isSpace d →
    Respaced false true cs ds → Respaced false fresh (c :: cs) (d :: ds)
  | left {c : Char} {cs ds : List Char} : isSpace c →
    Respaced false true cs ds → Respaced false true (c :: cs) ds
  | right {d : Char} {cs ds : List Char} : isSpace d →
    Respaced false true cs ds → Respaced false true cs (d :: ds)
  | unclosed {fresh : Bool} {cs ds : List Char} : '"' ∉ cs → '"' ∉ ds → Respaced true fresh cs ds

namespace Respaced

variable {inString fresh : Bool} {cs ds rest : List Char}

theorem refl (inString fresh : Bool) (cs : List Char) : Respaced inString fresh cs cs := by
  induction cs generalizing inString fresh with
  | nil => exact .nil
  | cons c cs ih => exact .char c (ih _ _)

theorem symm (h : Respaced inString fresh cs ds) : Respaced inString fresh ds cs := by
  induction h with
  | nil => exact .nil
  | char c _ ih => exact .char c ih
  | blank hc hd _ ih => exact .blank hd hc ih
  | left hc _ ih => exact .right hc ih
  | right hd _ ih => exact .left hd ih
  | unclosed hc hd => exact .unclosed hd hc

/-- A boundary before the texts only allows more. -/
theorem weaken (h : Respaced inString false cs ds) (fresh : Bool) : Respaced inString fresh cs ds := by
  cases h with
  | nil => exact .nil
  | char c h => exact .char c h
  | blank hc hd h => exact .blank hc hd h
  | unclosed hc hd => exact .unclosed hc hd

/-- Where no blank comes next, the boundary makes no difference. -/
theorem tighten (h : Respaced false fresh cs ds) (hc : ∀ c ∈ cs.head?, ¬ isSpace c)
    (hd : ∀ d ∈ ds.head?, ¬ isSpace d) : Respaced false false cs ds := by
  cases h with
  | nil => exact .nil
  | char c h => exact .char c h
  | blank cb db h => exact .blank cb db h
  | left space => exact absurd space (hc _ rfl)
  | right space => exact absurd space (hd _ rfl)

/-- The same text before both. -/
theorem prepend (xs : List Char) (h : Respaced (quoteOpen inString xs) (freshAfter fresh xs) cs ds) :
    Respaced inString fresh (xs ++ cs) (xs ++ ds) := by
  induction xs generalizing inString fresh with
  | nil => exact h
  | cons x xs ih => exact .char x (ih h)

theorem left_run {run : List Char} (hs : ∀ c ∈ run, isSpace c) (h : Respaced false true cs ds) :
    Respaced false true (run ++ cs) ds := by
  induction run with
  | nil => exact h
  | cons c run ih =>
    obtain ⟨hc, hs⟩ := List.forall_mem_cons.1 hs
    exact .left hc (ih hs)

/-- One run of blanks for another. -/
theorem run {xs ys : List Char} (hx : xs ≠ []) (hy : ys ≠ []) (hxs : ∀ c ∈ xs, isSpace c)
    (hys : ∀ c ∈ ys, isSpace c) (h : Respaced false true cs ds) :
    Respaced false fresh (xs ++ cs) (ys ++ ds) := by
  cases xs with
  | nil => exact absurd rfl hx
  | cons x xs =>
    cases ys with
    | nil => exact absurd rfl hy
    | cons y ys =>
      obtain ⟨hx, hxs⟩ := List.forall_mem_cons.1 hxs
      obtain ⟨hy, hys⟩ := List.forall_mem_cons.1 hys
      exact .blank hx hy (left_run hxs (left_run hys h.symm).symm)

/-- What is left when all blanks are taken off the front, or more than those. -/
theorem dropWhile {p : Char → Bool} (hp : ∀ c, isSpace c → p c) (hq : p '"' = false)
    (h : Respaced false fresh cs ds) : Respaced false false (cs.dropWhile p) (ds.dropWhile p) := by
  have dropped {inString fresh : Bool} {cs ds : List Char} (h : Respaced inString fresh cs ds)
      (hs : inString = false) : Respaced false true (cs.dropWhile p) (ds.dropWhile p) := by
    induction h with
    | nil => exact .nil
    | @char inString fresh cs ds c h ih =>
      subst hs
      by_cases hc : p c
      · have quote : c ≠ '"' := by
          rintro rfl
          rw [hq] at hc
          cases hc
        rw [List.dropWhile_cons_of_pos hc, List.dropWhile_cons_of_pos hc]
        exact ih (by rw [beq_eq_false_iff_ne.2 quote]; rfl)
      · rw [List.dropWhile_cons_of_neg hc, List.dropWhile_cons_of_neg hc]
        exact .char c h
    | blank hc hd _ ih =>
      rw [List.dropWhile_cons_of_pos (hp _ hc), List.dropWhile_cons_of_pos (hp _ hd)]
      exact ih rfl
    | left hc _ ih =>
      rw [List.dropWhile_cons_of_pos (hp _ hc)]
      exact ih rfl
    | right hd _ ih =>
      rw [List.dropWhile_cons_of_pos (hp _ hd)]
      exact ih rfl
    | unclosed => cases hs
  have head (xs : List Char) : ∀ c ∈ (xs.dropWhile p).head?, ¬ isSpace c := by
    intro c hc space
    have stop := List.head?_dropWhile_not p xs
    rw [Option.mem_def.1 hc] at stop
    exact absurd (hp c space) (by simpa using stop)
  exact (dropped h rfl).tighten (head cs) (head ds)

/-- A run of inner characters is in both texts. -/
theorem takeWhile {p : Char → Bool} (hp : ∀ c, p c → Inner c) (h : Respaced false false cs ds) :
    cs.takeWhile p = ds.takeWhile p ∧ Respaced false false (cs.dropWhile p) (ds.dropWhile p) := by
  induction cs generalizing ds with
  | nil =>
    cases h
    exact ⟨rfl, .nil⟩
  | cons c cs ih =>
    cases h with
    | @char _ _ _ ds _ h =>
      by_cases hc : p c
      · obtain ⟨boundary, quote⟩ := hp c hc
        rw [boundary, beq_eq_false_iff_ne.2 quote] at h
        obtain ⟨same, rest⟩ := ih h
        simp only [List.takeWhile_cons_of_pos hc, List.dropWhile_cons_of_pos hc, same]
        exact ⟨trivial, rest⟩
      · simp only [List.takeWhile_cons_of_neg hc, List.dropWhile_cons_of_neg hc]
        exact ⟨trivial, .char c h⟩
    | @blank _ _ d _ ds hc hd h =>
      have outside {x : Char} (space : isSpace x) : ¬ p x := fun hx => by
        have := (hp x hx).1
        rw [isBoundary_of_isSpace space] at this
        cases this
      simp only [List.takeWhile_cons_of_neg (outside hc), List.takeWhile_cons_of_neg (outside hd),
        List.dropWhile_cons_of_neg (outside hc), List.dropWhile_cons_of_neg (outside hd)]
      exact ⟨trivial, .blank hc hd h⟩

/-- A word at the start of the one text is at the start of the other. -/
theorem word {w : List Char} (hw : ∀ c ∈ w, Inner c) (h : Respaced false false (w ++ rest) ds) :
    ∃ rest', ds = w ++ rest' ∧ Respaced false false rest rest' := by
  induction w generalizing ds with
  | nil => exact ⟨ds, rfl, h⟩
  | cons c w ih =>
    obtain ⟨⟨boundary, quote⟩, hw⟩ := List.forall_mem_cons.1 hw
    cases h with
    | char _ h =>
      rw [boundary, beq_eq_false_iff_ne.2 quote] at h
      obtain ⟨rest', rfl, later⟩ := ih hw h
      exact ⟨rest', rfl, later⟩
    | blank space =>
      rw [isBoundary_of_isSpace space] at boundary
      cases boundary

/-- A string is closed in both texts behind the same contents, or in neither. -/
theorem string (h : Respaced true fresh cs ds) :
    (∃ body rest rest', '"' ∉ body ∧ cs = body ++ '"' :: rest ∧ ds = body ++ '"' :: rest' ∧
      Respaced false false rest rest') ∨ ('"' ∉ cs ∧ '"' ∉ ds) := by
  induction cs generalizing ds fresh with
  | nil =>
    cases h with
    | nil => exact .inr ⟨nofun, nofun⟩
    | unclosed hc hd => exact .inr ⟨hc, hd⟩
  | cons c cs ih =>
    cases h with
    | @char _ _ _ ds _ h =>
      by_cases quote : c = '"'
      · subst quote
        exact .inl ⟨[], cs, ds, nofun, rfl, rfl, h⟩
      · rw [beq_eq_false_iff_ne.2 quote] at h
        rcases ih h with ⟨body, rest, rest', clean, rfl, rfl, later⟩ | ⟨hc, hd⟩
        · refine .inl ⟨c :: body, rest, rest', ?_, rfl, rfl, later⟩
          exact List.not_mem_cons_of_ne_of_not_mem (Ne.symm quote) clean
        · exact .inr ⟨List.not_mem_cons_of_ne_of_not_mem (Ne.symm quote) hc,
            List.not_mem_cons_of_ne_of_not_mem (Ne.symm quote) hd⟩
    | unclosed hc hd => exact .inr ⟨hc, hd⟩

end Respaced

end InventoryQuery
