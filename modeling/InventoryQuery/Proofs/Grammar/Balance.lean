import InventoryQuery.Proofs.Grammar.Accepted
import InventoryQuery.Proofs.Token.Marks

/-! Parentheses. Only one rule reads them, and it reads one of each, so that every sentence has as
many that open as that close. In an accepted text they are counted outside double quotes. -/

namespace InventoryQuery

namespace Grammar

def isParen : Kind → Bool
  | .leftParen | .rightParen => true
  | _ => false

theorem isParen_infixOf? {r : Rule} {k : Kind} {o : InfixOperator} (h : r.infixOf? k = some o) :
    isParen k = false := by
  cases r <;> cases k <;> first | rfl | cases h

theorem isParen_separator? {r : Rule} {k : Kind} (h : r.separator? = some k) :
    isParen k = false := by
  cases r <;> cases h <;> rfl

theorem isParen_unaryOf? {k : Kind} {o : PrefixOperator} (h : unaryOf? k = some o) :
    isParen k = false := by
  cases k <;> first | rfl | cases h

theorem isParen_existenceOf? {k : Kind} {o : PrefixOperator} (h : existenceOf? k = some o) :
    isParen k = false := by
  cases k <;> first | rfl | cases h

theorem isParen_leaf? {t : Token} {s : Shape Expr} (h : leaf? t = some s) :
    isParen t.kind = false := by
  unfold leaf? at h
  split at h <;> simp_all [isParen]

def Balanced (ts : List Token) : Prop :=
  ts.countP (·.kind = .leftParen) = ts.countP (·.kind = .rightParen)

namespace Balanced

theorem nil : Balanced [] := rfl

theorem append {ts us : List Token} (ht : Balanced ts) (hu : Balanced us) :
    Balanced (ts ++ us) := by
  unfold Balanced at ht hu ⊢
  rw [List.countP_append, List.countP_append, ht, hu]

theorem cons {t : Token} {ts : List Token} (hk : isParen t.kind = false) (h : Balanced ts) :
    Balanced (t :: ts) := by
  have left : t.kind ≠ .leftParen := by rintro same; rw [same] at hk; cases hk
  have right : t.kind ≠ .rightParen := by rintro same; rw [same] at hk; cases hk
  unfold Balanced at h ⊢
  rw [List.countP_cons_of_neg (by simpa using left), List.countP_cons_of_neg (by simpa using right),
    h]

theorem enclosed {o c : Token} {ts : List Token} (ho : o.kind = .leftParen)
    (hc : c.kind = .rightParen) (h : Balanced ts) : Balanced (o :: (ts ++ [c])) := by
  unfold Balanced at h ⊢
  simp [ho, hc, h]

end Balanced

/-- What holds of nothing, of two lists one behind the other, with any other token in front and
between two parentheses holds of all that a rule reads. -/
theorem Derives.paren_induction {motive : List Token → Prop} (nil : motive [])
    (append : ∀ {ts us}, motive ts → motive us → motive (ts ++ us))
    (cons : ∀ {t ts}, isParen t.kind = false → motive ts → motive (t :: ts))
    (enclosed : ∀ {o c ts}, o.kind = .leftParen → c.kind = .rightParen → motive ts →
      motive (o :: (ts ++ [c])))
    {p : Part} {ts : List Token} {e : Expr} {n : Nat} (h : Derives p ts e n) : motive ts := by
  have other {t : Token} {k : Kind} (ht : t.kind = k) (hk : isParen k = false) :
      isParen t.kind = false := by rw [ht, hk]
  induction h with
  | conditional hi ht he _ _ _ hc ha hb =>
    exact cons (other hi rfl) (append hc (cons (other ht rfl) (append ha (cons (other he rfl) hb))))
  | pass _ _ ih => exact ih
  | list _ _ _ hx ht | chain _ _ _ hx ht => exact append hx ht
  | noItem | done => exact nil
  | item ht _ _ hx hts => exact cons (isParen_separator? ht) (append hx hts)
  | compared ho _ _ hx hy => exact append hx (cons (other ho rfl) hy)
  | operator ho _ _ hx ht => exact cons (isParen_infixOf? ho) (append hx ht)
  | prefixed ho _ hx => exact cons (isParen_unaryOf? ho) hx
  | typed ha hp _ ht => exact cons (other ha rfl) (cons (other hp rfl) ht)
  | sourced ho _ _ hx hy => exact append hx (cons (other ho rfl) hy)
  | its hi _ _ hx ht => exact cons (other hi rfl) (append hx ht)
  | arrow hw _ _ hx ht => exact cons (other hw rfl) (append hx ht)
  | arrowExists hw ht _ hts => exact cons (other hw rfl) (cons (isParen_existenceOf? ht) hts)
  | filtered hw _ _ hx ht => exact cons (other hw rfl) (append hx ht)
  | phrase hp => exact cons (other hp rfl) nil
  | applied hp _ hx => exact cons (other hp rfl) hx
  | parens ho hc _ hx => exact enclosed ho hc hx
  | leaf hs => exact cons (isParen_leaf? hs) nil

theorem Derives.balanced {p : Part} {ts : List Token} {e : Expr} {n : Nat}
    (h : Derives p ts e n) : Balanced ts := h.paren_induction .nil .append .cons .enclosed

/-- What opens has closed by the end: at every place, no more parentheses open behind it than
close. -/
def Inward (ts : List Token) : Prop :=
  ∀ us, us <:+ ts → us.countP (·.kind = .leftParen) ≤ us.countP (·.kind = .rightParen)

namespace Inward

theorem nil : Inward [] := by
  intro us h
  rw [List.suffix_nil.1 h]
  exact Nat.le_refl 0

theorem append {ts us : List Token} (ht : Inward ts) (hu : Inward us) : Inward (ts ++ us) := by
  rintro vs ⟨front, h⟩
  rcases List.append_eq_append_iff.1 h with ⟨ws, rfl, rfl⟩ | ⟨ws, rfl, rfl⟩
  · rw [List.countP_append, List.countP_append]
    exact Nat.add_le_add (ht ws (List.suffix_append _ _)) (hu us (List.suffix_refl us))
  · exact hu vs (List.suffix_append _ _)

theorem cons {t : Token} {ts : List Token} (ht : t.kind ≠ .leftParen) (h : Inward ts) :
    Inward (t :: ts) := by
  intro us hs
  rcases List.suffix_cons_iff.1 hs with rfl | hs
  · rw [List.countP_cons_of_neg (by simpa using ht), List.countP_cons]
    exact Nat.le_trans (h ts (List.suffix_refl ts)) (Nat.le_add_right _ _)
  · exact h us hs

theorem enclosed {o c : Token} {ts : List Token} (ho : o.kind = .leftParen)
    (hc : c.kind = .rightParen) (balanced : Balanced ts) (h : Inward ts) :
    Inward (o :: (ts ++ [c])) := by
  intro us hs
  rcases List.suffix_cons_iff.1 hs with rfl | hs
  · exact Nat.le_of_eq (balanced.enclosed ho hc)
  · exact (h.append (nil.cons (by simp [hc]))) us hs

end Inward

theorem Derives.inward {p : Part} {ts : List Token} {e : Expr} {n : Nat} (h : Derives p ts e n) :
    Inward ts := by
  have other {t : Token} (hk : isParen t.kind = false) : t.kind ≠ .leftParen := by
    intro same
    rw [same] at hk
    cases hk
  have both : Balanced ts ∧ Inward ts := h.paren_induction (motive := fun ts => Balanced ts ∧ Inward ts)
    ⟨.nil, .nil⟩ (fun ht hu => ⟨ht.1.append hu.1, ht.2.append hu.2⟩)
    (fun hk ht => ⟨ht.1.cons hk, ht.2.cons (other hk)⟩)
    (fun ho hc ht => ⟨ht.1.enclosed ho hc, ht.2.enclosed ho hc ht.1⟩)
  exact both.2

end Grammar

open Grammar

/-- An accepted text closes as many parentheses as it opens. -/
theorem balanced_of_compile {text : List Char} {t : Tree} (h : compile text = .ok t) :
    (outside false text).count '(' = (outside false text).count ')' := by
  have valid := valid_of_compile h
  obtain ⟨v, hv, -⟩ := compile_eq_ok h
  obtain ⟨n, -, -, hd, -⟩ := derives_of_parse hv
  have opening := countP_tokens (m := ('(', .leftParen)) (by decide) valid
  have closing := countP_tokens (m := (')', .rightParen)) (by decide) valid
  rw [count_outside_rewriteKeywords (m := ('(', .leftParen)) (by decide)] at opening
  rw [count_outside_rewriteKeywords (m := (')', .rightParen)) (by decide)] at closing
  exact opening.symm.trans (hd.balanced.trans closing)

end InventoryQuery
