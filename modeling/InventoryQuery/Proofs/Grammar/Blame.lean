import InventoryQuery.Proofs.Grammar.Course

/-! Errors about characters. Three codes are kept for what the lexer could not read: a character that
no token starts with, a string without an end, and a word that is marked as reserved and is not. A run
fails with such a code only at a token with this fault. -/

namespace InventoryQuery

def Code.isLexical : Code → Bool
  | invalidCharacter | unterminatedString | unknownKeyword => true
  | _ => false

def Token.fault? (t : Token) : Option Code :=
  if t.kind = .invalid then
    match t.text with
    | '"' :: _ => some .unterminatedString
    | '$' :: _ => some .unknownKeyword
    | _ => some .invalidCharacter
  else none

namespace Grammar

theorem not_isLexical_of_isRefusal {cause : Cause} (h : cause.isRefusal) : cause.code.isLexical = false := by
  cases cause <;> first | rfl | cases h

/-- The next token is to blame if it is invalid, and then it has the fault that is reported. -/
theorem fault?_of_unexpected {s : State} (lexical : (unexpected s).code.isLexical) :
    s.here.fault? = some (unexpected s).code := by
  have invalid : s.here.kind = .invalid := by
    unfold unexpected at lexical
    cases hk : s.here.kind <;> first | rfl | (simp only [hk] at lexical; cases lexical)
  unfold Token.fault? unexpected
  simp only [invalid, if_true]
  split <;> simp_all [Cause.code]

theorem Fails.fault? {s t : State} {e : SyntaxError} (h : Fails s e t) (lexical : e.code.isLexical) :
    t.here.fault? = some e.code := by
  induction h with
  | unexpected => exact fault?_of_unexpected lexical
  | refused hr => exact absurd lexical (by simp [SyntaxError.code, not_isLexical_of_isRefusal hr])
  | unclosed => cases lexical
  | after _ _ ih | enclosed _ _ ih | within _ _ ih => exact ih lexical

end Grammar

open Grammar

/-- A lexical error comes from a token that has its fault. -/
theorem exists_fault_of_error {ts : List Token} {e : SyntaxError} (h : parseTokens ts = .error e)
    (lexical : e.code.isLexical) : ∃ t ∈ ts, t.fault? = some e.code := by
  obtain ⟨s, fails⟩ := fails_of_parseTokens h fun deep => by rw [deep] at lexical; cases lexical
  have fault := fails.fault? lexical
  have invalid : s.here.kind ≠ .endOfInput := by
    intro last
    simp [Token.fault?, last] at fault
  obtain ⟨read, all, -⟩ := fails.between
  change ts = read ++ s.rest at all
  refine ⟨s.here, ?_, fault⟩
  rw [all, rest_eq_here_cons invalid]
  exact List.mem_append_right _ List.mem_cons_self

end InventoryQuery
