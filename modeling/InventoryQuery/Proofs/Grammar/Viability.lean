import InventoryQuery.Proofs.Grammar.Acceptance
import InventoryQuery.Proofs.Grammar.Relabelling

/-! Where an error is found. What was read before the token that the error points at begins some
sentence, and together with that token it begins none: otherwise the run on that sentence would be
the same up to the token, and fail. -/

namespace InventoryQuery

open Grammar

/-- Only the kinds of the tokens make a sentence. -/
def Sentence (ks : List Kind) : Prop :=
  ∃ ts, ts.map (·.kind) = ks ∧ Derivable (.rule .expression) ts

/-- Some sentence with the end of the input after it begins like this. -/
def Viable (ks : List Kind) : Prop := ∃ us, Sentence us ∧ ks <+: us ++ [.endOfInput]

theorem Sentence.derivable {ks : List Kind} (h : Sentence ks) {ts : List Token}
    (hk : ts.map (·.kind) = ks) : Derivable (.rule .expression) ts := by
  obtain ⟨us, hu, e, n, hd⟩ := h
  obtain ⟨e', hd⟩ := hd.of_kinds (hk.trans hu.symm)
  exact ⟨e', n, hd⟩

theorem viable_of_extendable {ts : List Token} (h : Extendable (.rule .expression) ts) :
    Viable (ts.map (·.kind)) := by
  obtain ⟨us, hd⟩ := h
  refine ⟨_, ⟨ts ++ us, rfl, hd⟩, ?_⟩
  rw [List.map_append, List.append_assoc]
  exact List.prefix_append _ _

theorem ne_endOfInput_of_extendable {ts : List Token} (h : Extendable (.rule .expression) ts) :
    ∀ t ∈ ts, t.kind ≠ .endOfInput := by
  obtain ⟨us, hd⟩ := h
  exact fun t ht => readable_of_derivable hd t (List.mem_append_left us ht)

/-- Tokens whose kinds begin a sentence can be completed to one. -/
theorem complete_of_viable {ts : List Token} (h : Viable (ts.map (·.kind))) :
    ∃ us ws eof, ts ++ us = ws ++ [eof] ∧ eof.kind = .endOfInput ∧
      Derivable (.rule .expression) ws := by
  obtain ⟨ks, hs, rest, hk⟩ := h
  have kinds : (ts ++ rest.map sample).map (·.kind) = ks ++ [.endOfInput] := by
    rw [List.map_append, List.map_map, ← hk]
    simp [Function.comp_def, sample]
  obtain ⟨ws, last, hsplit, hw, hl⟩ := List.map_eq_append_iff.1 kinds
  obtain ⟨eof, rfl, heof⟩ := List.map_eq_singleton_iff.1 hl
  exact ⟨_, ws, eof, hsplit, heof, hs.derivable hw⟩

/-- An error points at the token that comes next, after the beginning of a sentence. -/
theorem extendable_of_whole {ts : List Token} {e : SyntaxError} {s : State}
    (h : whole (.initial ts) = .error e s) (hc : e.code ≠ .nestedTooDeeply) :
    e.span = s.here.span ∧ ∃ c, ts = c ++ s.rest ∧ Extendable (.rule .expression) c := by
  have sound := faithful_run .expression (.initial ts)
  unfold Sound at sound
  rw [whole, bind_apply] at h
  cases hr : run .expression (.initial ts) with
  | error e' u =>
    rw [hr] at h sound
    cases h
    exact sound.resolve_left hc
  | ok a u =>
    rw [hr] at h sound
    simp only [peek_bind] at h
    split at h
    · cases h
    · cases h
      obtain ⟨c, hs, hd⟩ := sound
      exact ⟨rfl, c, hs, [], by rwa [List.append_nil]⟩

/-- The run is the same on every text that begins with the tokens read and the token after them. -/
theorem not_viable_of_whole {c rest : List Token} {t : Token} {e : SyntaxError} {s : State}
    (h : whole (.initial (c ++ t :: rest)) = .error e s) (hs : s.rest = t :: rest)
    (hc : e.code ≠ .nestedTooDeeply) : ¬ Viable ((c ++ [t]).map (·.kind)) := by
  intro hv
  obtain ⟨us, ws, eof, hsplit, heof, x, n, hd⟩ := complete_of_viable hv
  obtain ⟨d, hd', same⟩ := local_whole (.initial (c ++ t :: rest))
  rw [h] at hd' same
  change c ++ t :: rest = d ++ s.rest at hd'
  rw [hs] at hd'
  cases List.append_cancel_right hd'
  have stopped : final (.error e s : EStateM.Result _ _ NodeId) = s := rfl
  have other : whole (.initial (c ++ t :: us)) = leaving (t :: us) (.error e s) :=
    same (t :: us) (by rw [stopped, hs]; rfl)
  have meets := whole_meets hd heof
  rw [← hsplit, List.append_assoc, List.singleton_append] at meets
  unfold Meets at meets
  rw [other] at meets
  exact hc meets.2

theorem eq_endOf {text : List Char} {t : Token} (ht : t ∈ tokens text) (hk : t.kind = .endOfInput) :
    t = .endOf text := by
  rw [tokens_eq] at ht
  rcases List.mem_append.1 ht with h | h
  · exact absurd hk (kind_ne_endOfInput h)
  · exact List.mem_singleton.1 h

/-- An error points at the first token that no sentence can have there. -/
theorem error_span (text : List Char) (e : SyntaxError) (h : parse text = .error e)
    (hc : e.code ≠ .nestedTooDeeply) :
    ∃ k, ∃ hk : k < (tokens text).length,
      Viable (((tokens text).take k).map (·.kind)) ∧
      ¬ Viable (((tokens text).take (k + 1)).map (·.kind)) ∧
      e.span = (tokens text)[k].span ∧
      ((tokens text)[k].kind = .endOfInput → e.span = .empty (byteSize text)) := by
  unfold parse parseTokens at h
  split at h
  · rename_i e' s hw
    cases h
    obtain ⟨hspan, c, hts, hx⟩ := extendable_of_whole hw hc
    obtain ⟨rest, hrest⟩ : ∃ rest, s.rest = s.here :: rest := by
      cases hs : s.rest with
      | cons t rest => exact ⟨rest, by rw [here_cons hs]⟩
      | nil =>
        rw [hs, List.append_nil] at hts
        have eof : Token.endOf text ∈ c := by rw [← hts, tokens_eq]; simp
        exact absurd rfl (ne_endOfInput_of_extendable hx _ eof)
    rw [hrest] at hts
    have found : (tokens text)[c.length]? = some s.here := by rw [hts]; simp
    obtain ⟨hk, hget⟩ := List.getElem?_eq_some_iff.1 found
    refine ⟨c.length, hk, ?_, ?_, by rw [hget, hspan], fun heof => ?_⟩
    · rw [hts, List.take_left]
      exact viable_of_extendable hx
    · rw [hts, List.take_length_add_append]
      rw [hts] at hw
      exact not_viable_of_whole hw hrest hc
    · rw [hget] at heof
      rw [hspan, eq_endOf (hget ▸ List.getElem_mem hk) heof]
      rfl
  · split at h
    · cases h
      exact absurd rfl hc
    · cases h

theorem error_span_stray_paren :
    let text := ['1', ' ', ')']
    let e : SyntaxError := ⟨.strayClosing .topLevel, ⟨2, 3⟩⟩
    parse text = .error e ∧ e.code ≠ .nestedTooDeeply ∧ ∃ k, ∃ hk : k < (tokens text).length,
      Viable (((tokens text).take k).map (·.kind)) ∧
      ¬ Viable (((tokens text).take (k + 1)).map (·.kind)) ∧
      e.span = (tokens text)[k].span ∧
      ((tokens text)[k].kind = .endOfInput → e.span = .empty (byteSize text)) :=
  ⟨rfl, by decide, error_span _ _ rfl (by decide)⟩

end InventoryQuery
