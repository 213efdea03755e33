import InventoryQuery.Proofs.Token.Lossless

/-! Tokens take up the text one behind the other. Each takes some of it, apart from the one for the end
of the input. -/

namespace InventoryQuery

def Token.Precedes (t u : Token) : Prop := t.span.stop ≤ u.start

theorem Laid.ordered {offset : Nat} {text : List Char} {ts : List Token} (h : Laid offset text ts) :
    (∀ t ∈ ts, offset ≤ t.start ∧ t.span.stop ≤ offset + byteSize text) ∧ ts.Pairwise Token.Precedes := by
  induction h with
  | blanks => exact ⟨by simp, .nil⟩
  | @token offset gap w rest k ts _ _ ih =>
    obtain ⟨places, ordered⟩ := ih
    simp only [byteSize_append]
    refine ⟨List.forall_mem_cons.2 ⟨?_, fun t ht => ?_⟩, .cons (fun t ht => (places t ht).1) ordered⟩
    · simp only [Token.span]
      omega
    · have := places t ht
      omega

namespace Token

theorem start_lt_stop {t : Token} (h : t.text ≠ []) : t.start < t.span.stop := by
  cases hs : t.text with
  | nil => exact absurd hs h
  | cons c cs =>
    have := Char.utf8Size_pos c
    simp only [span, hs, byteSize_cons]
    omega

end Token

/-- The end of the input comes last. -/
theorem ordered_tokens (text : List Char) : (tokens text).Pairwise Token.Precedes := by
  obtain ⟨places, ordered⟩ := (merges_tokens text).laid.ordered
  rw [tokens_eq]
  refine List.pairwise_append.2 ⟨ordered, List.pairwise_singleton _ _, fun t ht u hu => ?_⟩
  cases List.mem_singleton.1 hu
  have := (places t ht).2
  rwa [Nat.zero_add] at this

theorem start_lt_stop_of_mem_tokens {text : List Char} :
    ∀ t ∈ (tokens text).dropLast, t.start < t.span.stop := by
  intro t ht
  have filled := (cuts_lexemes text).filled
  have joins : Token.Joins (·.text ≠ []) (lexemes text) (tokens text).dropLast :=
    joins_tokens (fun p u v hp => by simp [hp]) fun t ht _ => filled t ht
  rcases joins.mem ht with phrase | ⟨mem, -⟩
  · exact Token.start_lt_stop phrase
  · exact Token.start_lt_stop (filled t mem)

end InventoryQuery
