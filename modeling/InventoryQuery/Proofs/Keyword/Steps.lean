import InventoryQuery.Proofs.Layout.Rewriting

/-! A pass of rewriting, step by step. At every place it copies the next character, or it takes a
phrase of the text and writes something else for it; the text and its rewritten form are both read
off the steps. A phrase is taken only at the start of a word, so that what stands in one piece in
the rewritten text stands in one piece in the text as well. -/

namespace InventoryQuery

namespace Rewrite

inductive Step where
  | copied (c : Char)
  | replaced (rule : Rewrite) (taken : List Char)
  deriving Repr, DecidableEq

namespace Step

def input : Step → List Char
  | copied c => [c]
  | replaced _ taken => taken

def output : Step → List Char
  | copied c => [c]
  | replaced rule _ => rule.output

end Step

def stepsFrom (rules : List Rewrite) : (skip : Nat) → (inString fresh : Bool) → List Char → List Step
  | _, _, _, [] => []
  | skip + 1, inString, _, c :: cs => stepsFrom rules skip inString (isBoundary c) cs
  | 0, inString, fresh, c :: cs =>
    match if !inString && fresh then longest? rules (c :: cs) else none with
    | some (r, n) => .replaced r ((c :: cs).take n) :: stepsFrom rules (n - 1) inString (isBoundary c) cs
    | none => .copied c :: stepsFrom rules 0 (inString ^^ (c == '"')) (isBoundary c) cs

theorem flatMap_output (rules : List Rewrite) (skip : Nat) (inString fresh : Bool) (cs : List Char) :
    (stepsFrom rules skip inString fresh cs).flatMap Step.output =
      applyFrom rules skip inString fresh cs := by
  induction cs generalizing skip inString fresh with
  | nil => cases skip <;> rfl
  | cons c cs ih =>
    cases skip with
    | succ skip => exact ih skip inString _
    | zero =>
      rw [stepsFrom, applyFrom]
      cases if !inString && fresh then longest? rules (c :: cs) else none with
      | none => exact congrArg (c :: ·) (ih 0 _ _)
      | some found => exact congrArg (found.1.output ++ ·) (ih (found.2 - 1) inString _)

/-- What the steps copy stands in the rewritten text as well. -/
theorem applyFrom_of_copied {rules : List Rewrite} {inString fresh inString' fresh' : Bool}
    {w cs rest : List Char} (h : stepsFrom rules 0 inString fresh cs =
      w.map .copied ++ stepsFrom rules 0 inString' fresh' rest) :
    applyFrom rules 0 inString fresh cs = w ++ applyFrom rules 0 inString' fresh' rest := by
  have single : Step.output ∘ Step.copied = fun c => [c] := rfl
  rw [← flatMap_output, h, List.flatMap_append, flatMap_output, List.flatMap_map, ← Function.comp_def,
    single, List.flatMap_singleton']

section step

variable {rules : List Rewrite} {inString fresh : Bool} {c : Char} {cs : List Char}

theorem stepsFrom_copied (h : Copies rules inString fresh (c :: cs)) :
    stepsFrom rules 0 inString fresh (c :: cs) =
      .copied c :: stepsFrom rules 0 (inString ^^ (c == '"')) (isBoundary c) cs := by
  rw [stepsFrom, h.none]

theorem stepsFrom_skipped (w rest : List Char) (inString fresh : Bool) :
    stepsFrom rules w.length inString fresh (w ++ rest) =
      stepsFrom rules 0 inString (freshAfter fresh w) rest := by
  induction w generalizing fresh with
  | nil => rfl
  | cons c w ih => exact ih (isBoundary c)

end step

section pass

variable {rules : List Rewrite} (hp : ∀ r ∈ rules, r.Plain) (hs : ∀ r ∈ rules, r.Solid)

include hp hs

theorem stepsFrom_boundary {b : Char} (hb : isBoundary b) (inString fresh : Bool) (cs : List Char) :
    stepsFrom rules 0 inString fresh (b :: cs) = .copied b :: stepsFrom rules 0 inString true cs := by
  rw [stepsFrom_copied fun _ _ => longest?_boundary hp hs hb cs, hb,
    beq_eq_false_iff_ne.2 (ne_quote_of_isBoundary hb), Bool.xor_false]

/-- Where a boundary comes next it makes no difference what was before. -/
theorem stepsFrom_stop {rest : List Char} (stop : rest.head?.all isBoundary) (inString fresh : Bool) :
    stepsFrom rules 0 inString fresh rest = stepsFrom rules 0 inString false rest := by
  cases rest with
  | nil => rfl
  | cons b rest => rw [stepsFrom_boundary hp hs stop, stepsFrom_boundary hp hs stop]

theorem stepsFrom_replaced {w rest : List Char} {r : Rewrite} (h : Takes rules r w rest) :
    stepsFrom rules 0 false true (w ++ rest) = .replaced r w :: stepsFrom rules 0 false false rest := by
  have found := h.found
  cases w with
  | nil => exact absurd rfl h.filled
  | cons c w =>
    rw [List.cons_append] at found ⊢
    rw [stepsFrom]
    simp only [Bool.not_false, Bool.and_self, if_true, found]
    rw [← List.cons_append, List.take_left]
    exact congrArg _ ((stepsFrom_skipped w rest _ _).trans (stepsFrom_stop hp hs (h.stop hp) _ _))

theorem flatMap_input (inString fresh : Bool) (cs : List Char) :
    (stepsFrom rules 0 inString fresh cs).flatMap Step.input = cs := by
  induction inString, fresh, cs using pass_induction hp with
  | nil => rfl
  | copied inString fresh c cs copies ih =>
    rw [stepsFrom_copied copies, List.flatMap_cons, ih]
    rfl
  | replaced r w rest taken ih =>
    rw [stepsFrom_replaced hp hs taken, List.flatMap_cons, ih]
    rfl

theorem stepsFrom_run {run : List Char} (hr : ∀ c ∈ run, isBoundary c) (rest : List Char) :
    stepsFrom rules 0 false true (run ++ rest) =
      run.map .copied ++ stepsFrom rules 0 false true rest := by
  induction run with
  | nil => rfl
  | cons b run ih =>
    obtain ⟨boundary, others⟩ := List.forall_mem_cons.1 hr
    rw [List.cons_append, stepsFrom_boundary hp hs boundary, ih others]
    rfl

omit hp hs in
theorem stepsFrom_quoted {body : List Char} (hb : '"' ∉ body) (fresh : Bool) (rest : List Char) :
    stepsFrom rules 0 true fresh (body ++ rest) =
      body.map .copied ++ stepsFrom rules 0 true (freshAfter fresh body) rest := by
  induction body generalizing fresh with
  | nil => rfl
  | cons c body ih =>
    obtain ⟨quote, others⟩ := not_or.1 (mt List.mem_cons.2 hb)
    rw [List.cons_append, stepsFrom_copied copies_string, beq_eq_false_iff_ne.2 (Ne.symm quote),
      Bool.xor_false, ih others]
    rfl

end pass

section back

variable {rules : List Rewrite} {cs out : List Char}

/-- Within a word all is copied. -/
theorem stepsFrom_word {w : List Char} (hw : ∀ c ∈ w, Inner c) (rest : List Char) :
    stepsFrom rules 0 false false (w ++ rest) =
      w.map .copied ++ stepsFrom rules 0 false false rest := by
  induction w with
  | nil => rfl
  | cons c w ih =>
    obtain ⟨⟨boundary, quote⟩, others⟩ := List.forall_mem_cons.1 hw
    rw [List.cons_append, stepsFrom_copied copies_within, boundary, beq_eq_false_iff_ne.2 quote,
      Bool.xor_false, ih others]
    rfl

/-- A word that goes on in the rewritten text goes on in the text. -/
theorem word_of_applyFrom {w : List Char} (hw : ∀ c ∈ w, Inner c)
    (h : applyFrom rules 0 false false cs = w ++ out) :
    ∃ rest, cs = w ++ rest ∧ out = applyFrom rules 0 false false rest := by
  induction w generalizing cs with
  | nil => exact ⟨cs, rfl, h.symm⟩
  | cons a w ih =>
    obtain ⟨⟨boundary, quote⟩, others⟩ := List.forall_mem_cons.1 hw
    cases cs with
    | nil => cases h
    | cons c cs =>
      rw [applyFrom_copied copies_within] at h
      obtain ⟨rfl, tail⟩ := List.cons_eq_cons.1 h
      rw [boundary, beq_eq_false_iff_ne.2 quote, Bool.xor_false] at tail
      obtain ⟨rest, rfl, rfl⟩ := ih others tail
      exact ⟨rest, rfl, rfl⟩

/-- What ends a word in the rewritten text ends it in the text. -/
theorem head?_applyFrom (h : (applyFrom rules 0 false false cs).head?.all isBoundary) :
    cs.head?.all isBoundary := by
  cases cs with
  | nil => rfl
  | cons c cs => rwa [applyFrom_copied copies_within] at h

/-- A single word that is found in the rewritten text was found before. -/
theorem reach?_word_of_applyFrom {w : List Char} (hw : ∀ c ∈ w, Inner c) {n : Nat}
    (h : reach? [w] (applyFrom rules 0 false false cs) = some n) : reach? [w] cs = some n := by
  obtain ⟨out, split, stop, rfl⟩ := reach?_singleton_iff.1 h
  obtain ⟨rest, rfl, rfl⟩ := word_of_applyFrom hw split
  exact reach?_singleton_iff.2 ⟨rest, rfl, head?_applyFrom stop, rfl⟩

/-- What is written is one word that the sentinel starts. -/
def Marked (r : Rewrite) : Prop := r.output.head? = some sentinel ∧ ∀ c ∈ r.output, Inner c

theorem inner_written : ∀ k ∈ Keyword.all, ∀ c ∈ k.written, Inner c := by
  have table : ∀ k ∈ Keyword.all, k.written.all (decide <| Inner ·) := by decide +kernel
  simpa only [List.all_eq_true, decide_eq_true_eq] using table

theorem marked_writeKeywords : ∀ r ∈ writeKeywords, r.Marked := by
  intro r hr
  obtain ⟨k, hk, rfl⟩ := List.mem_map.1 hr
  exact ⟨rfl, inner_written k hk⟩

section marked

variable (hp : ∀ r ∈ rules, r.Plain) (hs : ∀ r ∈ rules, r.Solid) (hm : ∀ r ∈ rules, r.Marked)

include hp hs hm

/-- A rewritten text starts with the sentinel, or its first character is copied. -/
theorem stepsFrom_unmarked {fresh : Bool}
    (h : (applyFrom rules 0 false fresh cs).head? ≠ some sentinel) :
    stepsFrom rules 0 false fresh cs = stepsFrom rules 0 false false cs := by
  cases cs with
  | nil => rfl
  | cons c cs =>
    by_cases copies : Copies rules false fresh (c :: cs)
    · rw [stepsFrom_copied copies, stepsFrom_copied copies_within]
    · obtain ⟨-, rfl, r, w, rest, split, taken⟩ := exists_takes hp copies
      rw [split, applyFrom_replaced hp hs taken, List.head?_append, (hm r taken.mem).1] at h
      exact absurd rfl h

theorem applyFrom_unmarked {fresh : Bool}
    (h : (applyFrom rules 0 false fresh cs).head? ≠ some sentinel) :
    applyFrom rules 0 false fresh cs = applyFrom rules 0 false false cs := by
  rw [← flatMap_output, stepsFrom_unmarked hp hs hm h, flatMap_output]

/-- A run of boundaries in the rewritten text is a run in the text. -/
theorem run_of_applyFrom {p : Char → Bool} (hb : ∀ c, p c → isBoundary c) (fresh : Bool)
    (cs : List Char) :
    (applyFrom rules 0 false fresh cs).takeWhile p = cs.takeWhile p ∧
      (applyFrom rules 0 false fresh cs).dropWhile p =
        applyFrom rules 0 false (fresh || !(cs.takeWhile p).isEmpty) (cs.dropWhile p) := by
  induction cs generalizing fresh with
  | nil => exact ⟨rfl, rfl⟩
  | cons c cs ih =>
    by_cases hc : p c
    · obtain ⟨run, rest⟩ := ih true
      rw [applyFrom_boundary hp hs (hb c hc), List.takeWhile_cons_of_pos hc,
        List.takeWhile_cons_of_pos hc, List.dropWhile_cons_of_pos hc,
        List.dropWhile_cons_of_pos hc, run, rest]
      simp
    · have stays : ∀ d ∈ (applyFrom rules 0 false fresh (c :: cs)).head?, ¬ p d := by
        intro d hd
        by_cases marked : (applyFrom rules 0 false fresh (c :: cs)).head? = some sentinel
        · cases marked.symm.trans hd
          exact fun boundary => absurd (hb _ boundary) (by decide)
        · rw [applyFrom_unmarked hp hs hm marked, applyFrom_copied copies_within] at hd
          cases hd
          exact hc
      rw [List.takeWhile_cons_of_neg hc, List.dropWhile_cons_of_neg hc, List.isEmpty_nil,
        Bool.not_true, Bool.or_false]
      cases ho : applyFrom rules 0 false fresh (c :: cs) with
      | nil => exact ⟨rfl, rfl⟩
      | cons d out =>
        have keeps := stays d (by rw [ho]; rfl)
        exact ⟨List.takeWhile_cons_of_neg keeps, List.dropWhile_cons_of_neg keeps⟩

/-- A phrase that is found in the rewritten text was found before. -/
theorem reach?_of_applyFrom {ws : List (List Char)} (hne : ws ≠ [])
    (hw : ∀ w ∈ ws, w ≠ [] ∧ sentinel ∉ w ∧ ∀ c ∈ w, Inner c) {fresh : Bool} {n : Nat}
    (h : reach? ws (applyFrom rules 0 false fresh cs) = some n) : reach? ws cs = some n := by
  induction ws generalizing cs fresh n with
  | nil => exact absurd rfl hne
  | cons w ws ih =>
    obtain ⟨⟨filled, clean, inner⟩, others⟩ := List.forall_mem_cons.1 hw
    have copied {rest : List Char} (split : applyFrom rules 0 false fresh cs = w ++ rest) :
        applyFrom rules 0 false fresh cs = applyFrom rules 0 false false cs := by
      refine applyFrom_unmarked hp hs hm ?_
      rw [split]
      cases w with
      | nil => exact absurd rfl filled
      | cons a w => simpa using fun same : a = sentinel => clean (by simp [same])
    cases ws with
    | nil =>
      obtain ⟨out, split, -, -⟩ := reach?_singleton_iff.1 h
      rw [copied split] at h
      exact reach?_word_of_applyFrom inner h
    | cons v ws =>
      obtain ⟨out, k, split, gap, hk, rfl⟩ := reach?_cons_cons_iff.1 h
      obtain ⟨rest, rfl, rfl⟩ := word_of_applyFrom inner ((copied split).symm.trans split)
      obtain ⟨run, tail⟩ := run_of_applyFrom hp hs hm (fun _ => isBoundary_of_isBlank) false rest
      rw [tail] at hk
      rw [run] at gap ⊢
      exact reach?_cons_cons_iff.2 ⟨rest, k, rfl, gap, ih (by simp) others hk, rfl⟩

end marked

end back

end Rewrite

end InventoryQuery
