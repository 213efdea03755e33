import Mathlib.Algebra.Order.BigOperators.Group.List
import InventoryQuery.Proofs.Grammar.Accepted
import InventoryQuery.Proofs.Grammar.Mirror
import InventoryQuery.Proofs.Rendering.Weight

/-! Texts that are their own rendering. Rendering what an arrow or another spelling has been read from
makes the text heavier, so there is none in such a text, and what it is read from are the tokens of the
expression. -/

namespace InventoryQuery

open Grammar Lexeme

section sense

theorem Token.sense_congr {t u : Token} (kinds : t.kind = u.kind) (texts : t.text = u.text) : t.sense = u.sense := by
  simp only [Token.sense, kinds, texts]

variable {t : Token} (formed : t.Formed)
include formed

theorem sense_of_phrase (h : t.kind = .phrase) :
    t.sense = (⟨.phrase, (phraseName t.text).toList, 0⟩ : Token).sense := by
  rw [Token.Formed, h] at formed
  rw [Token.sense, Token.sense, h]
  simp only [IsName.phraseName formed, String.ofList_toList]

theorem sense_of_relation (h : t.kind = .relation) :
    t.sense = (spokenToken .relation (String.ofList (spokenForm t.text))).sense := by
  rw [Token.Formed, h] at formed
  refine Token.sense_congr h ?_
  rw [spokenToken, String.toList_ofList, (rewriteKeywords_relation _ formed rfl).1]

variable (rendered : t.AsRendered)
include rendered

theorem sense_of_form {k : Kind} {w : String} (hw : (k, w) ∈ renderedForms) (hk : t.kind = k) :
    t.sense = (spokenToken k w).sense := by
  have table : ∀ p ∈ renderedForms, p.1 ∉ [Kind.phrase, .numeral, .string, .blank, .word, .invalid, .endOfInput] ∧
      ∀ s ∈ spellings, s.2 = p.1 → Token.AsRendered ⟨s.2, s.1, 0⟩ → s.1 = rewriteKeywords p.2.toList := by
    decide +kernel
  obtain ⟨fixed, only⟩ := table _ hw
  exact Token.sense_congr hk (only _ (formed.spelled (hk ▸ fixed)) hk rendered)

theorem sense_of_prefix {o : PrefixOperator} (ho : unaryOf? t.kind = some o) :
    o.tokens.map Token.sense = [t.sense] := by
  cases hk : t.kind <;> rw [hk] at ho <;> cases ho
  · exact congrArg (· :: []) (sense_of_form formed rendered (w := "-") (by decide) hk).symm
  · exact congrArg (· :: []) (sense_of_form formed rendered (w := "not") (by decide) hk).symm
  · exact congrArg (· :: []) (sense_of_form formed rendered (w := "exists") (by decide) hk).symm
  · exact absurd (by simp [hk]) rendered.1

theorem sense_of_infix {r : Rule} {o : InfixOperator} (ho : r.infixOf? t.kind = some o) :
    t.sense = (spokenToken o.kind o.spelling).sense := by
  refine sense_of_form formed rendered (List.mem_append_left _ (mem_spokenOperators fun words same => ?_))
    (kind_of_infixOf? ho)
  exact Rule.infixOf?_ne_relation r _ words (same ▸ ho)

theorem sense_of_leaf {s : Shape Expr} (h : leaf? t = some s) :
    (Expr.node s).tokens.map Token.sense = [t.sense] := by
  unfold leaf? at h
  split at h <;> cases h <;> rename_i kind
  · rw [Token.Formed, kind] at formed
    obtain ⟨body, text, -⟩ := formed
    refine congrArg (· :: []) (Token.sense_congr kind.symm ?_)
    simp [unquoted, text]
  · refine congrArg (· :: []) (Token.sense_congr kind.symm ?_)
    simp
  · exact congrArg (· :: []) (sense_of_form formed rendered (by decide) kind).symm
  · rw [sense_of_form formed rendered (w := "?") (by decide) kind]
    rfl

end sense

/-- The tokens of what has been read to the left of a part. -/
@[simp] def Grammar.Part.tokens : Part → List Token
  | .rule _ => []
  | .more _ left => left.tokens
  | .items r done => (r.joined done).tokens

/-- One more item comes behind a separator. -/
theorem tokens_joined_concat {r : Rule} {k : Kind} (hs : r.separator? = some k) {done : List Expr} (hne : done ≠ [])
    (x : Expr) : ∃ w, (k, w) ∈ renderedForms ∧
      (r.joined (done ++ [x])).tokens = (r.joined done).tokens ++ spokenToken k w :: x.tokens := by
  obtain ⟨w, form, tokens⟩ : ∃ w, (k, w) ∈ renderedForms ∧
      ∀ es, (Expr.node (r.listed es)).tokens = Expr.tokensAll (spokenToken k w) es := by
    have signs : spokenToken .comma "," = ⟨.comma, [','], 0⟩ ∧ spokenToken .semicolon ";" = ⟨.semicolon, [';'], 0⟩ := by
      decide +kernel
    cases r with
    | tuple =>
      cases hs
      exact ⟨",", by decide, fun es => signs.1 ▸ rfl⟩
    | collection =>
      cases hs
      exact ⟨";", by decide, fun es => signs.2 ▸ rfl⟩
    | _ => cases hs
  have joined (es : List Expr) : (r.joined es).tokens = Expr.tokensAll (spokenToken k w) es := by
    match es with
    | [] => exact tokens []
    | [e] => rfl
    | e :: f :: es => exact tokens (e :: f :: es)
  refine ⟨w, form, ?_⟩
  cases done with
  | nil => exact absurd rfl hne
  | cons e es =>
    rw [joined, joined, List.cons_append, tokensAll_cons, tokensAll_cons, List.flatMap_append]
    simp

/-- If the tokens are written as they are rendered, they are what the expression is rendered with. -/
theorem Grammar.Derives.senses {p : Part} {ts : List Token} {e : Expr} {n : Nat} (h : Derives p ts e n)
    (ht : ∀ t ∈ ts, t.Formed ∧ t.AsRendered) (hp : p.Seen fun _ => True) :
    e.tokens.map Token.sense = p.tokens.map Token.sense ++ ts.map Token.sense := by
  induction h with
  | conditional hi hj hk _ _ _ ic ia ib =>
    simp only [List.forall_mem_cons, List.forall_mem_append] at ht
    obtain ⟨⟨fi, ri⟩, hc, ⟨fj, rj⟩, ha, ⟨fk, rk⟩, hb⟩ := ht
    have c := ic hc trivial
    have a := ia ha trivial
    have b := ib hb trivial
    simp [Expr.tokens, c, a, b, sense_of_form fi ri (w := "if") (by decide) hi,
      sense_of_form fj rj (w := "then") (by decide) hj, sense_of_form fk rk (w := "else") (by decide) hk]
  | pass _ _ ih => exact ih ht trivial
  | list _ _ _ ix im =>
    rw [List.forall_mem_append] at ht
    have x := ix ht.1 trivial
    have m := im ht.2 ⟨by simp, by simp⟩
    simp_all [Rule.joined]
  | noItem => simp
  | @item r done _ _ _ x _ _ _ hs _ _ ix im =>
    simp only [List.forall_mem_cons, List.forall_mem_append] at ht
    obtain ⟨w, form, tokens⟩ := tokens_joined_concat hs hp.1 x
    have x := ix ht.2.1 trivial
    have m := im ht.2.2 ⟨by simp, by simp⟩
    simp [m, tokens, x, sense_of_form ht.1.1 ht.1.2 form rfl]
  | compared ho _ _ ix iy =>
    simp only [List.forall_mem_cons, List.forall_mem_append] at ht
    have x := ix ht.1 trivial
    have y := iy ht.2.2 trivial
    simp [Expr.tokens, InfixOperator.kind, InfixOperator.spelling, x, y, sense_of_relation ht.2.1.1 ho]
  | chain _ _ _ ix im =>
    rw [List.forall_mem_append] at ht
    have x := ix ht.1 trivial
    have m := im ht.2 trivial
    simp [x, m]
  | done => simp
  | operator ho _ _ ix im =>
    simp only [List.forall_mem_cons, List.forall_mem_append] at ht
    have x := ix ht.2.1 trivial
    have m := im ht.2.2 trivial
    simp [Expr.tokens, x, m, sense_of_infix ht.1.1 ht.1.2 ho]
  | prefixed ho _ ih =>
    simp only [List.forall_mem_cons] at ht
    have x := ih ht.2 trivial
    simp [Expr.tokens, x, sense_of_prefix ht.1.1 ht.1.2 ho]
  | typed ha hk _ ih =>
    simp only [List.forall_mem_cons] at ht
    have m := ih ht.2.2 trivial
    simp [Expr.tokens, m, sense_of_form ht.1.1 ht.1.2 (w := "as") (by decide) ha,
      sense_of_phrase ht.2.1.1 hk]
  | sourced ho _ _ ix iy =>
    simp only [List.forall_mem_cons, List.forall_mem_append] at ht
    have x := ix ht.1 trivial
    have y := iy ht.2.2 trivial
    simp [Expr.tokens, x, y, sense_of_form ht.2.1.1 ht.2.1.2 (w := "of") (by decide) ho]
  | its hi =>
    simp only [List.forall_mem_cons] at ht
    exact absurd (by simp [hi]) ht.1.2.1
  | arrow hw =>
    simp only [List.forall_mem_cons] at ht
    exact absurd (by simp [hw]) ht.1.2.1
  | arrowExists hw =>
    simp only [List.forall_mem_cons] at ht
    exact absurd (by simp [hw]) ht.1.2.1
  | filtered hw _ _ ix im =>
    simp only [List.forall_mem_cons, List.forall_mem_append] at ht
    have x := ix ht.2.1 trivial
    have m := im ht.2.2 trivial
    simp [Expr.tokens, x, m, sense_of_form ht.1.1 ht.1.2 (w := "whose") (by decide) hw]
  | phrase hk =>
    simp only [List.forall_mem_cons] at ht
    simp [Expr.tokens, sense_of_phrase ht.1.1 hk]
  | applied hk _ ih =>
    simp only [List.forall_mem_cons] at ht
    have x := ih ht.2 trivial
    simp [Expr.tokens, x, sense_of_phrase ht.1.1 hk]
  | parens ho hc _ ih =>
    simp only [List.forall_mem_cons, List.forall_mem_append] at ht
    have x := ih ht.2.1 trivial
    have left := sense_of_form ht.1.1 ht.1.2 (w := "(") (by decide) ho
    have right := sense_of_form ht.2.2.1.1 ht.2.2.1.2 (w := ")") (by decide) hc
    have marks : spokenToken .leftParen "(" = ⟨.leftParen, ['('], 0⟩ ∧ spokenToken .rightParen ")" = ⟨.rightParen, [')'], 0⟩ := by
      decide +kernel
    rw [marks.1] at left
    rw [marks.2] at right
    simp [Expr.tokens, x, left, right]
  | leaf hs =>
    simp only [List.forall_mem_cons] at ht
    simp [sense_of_leaf ht.1.1 ht.1.2 hs]

/-- Only an arrow puts a prefix operator into a property. -/
theorem Grammar.Derives.not_prefixed {p : Part} {ts : List Token} {e : Expr} {n : Nat} (h : Derives p ts e n)
    (ht : ∀ t ∈ ts, t.kind ≠ .arrow) :
    match p with
    | .rule r => r.looseness ≤ Rule.property.looseness → ¬ e.Prefixed
    | .more r left => r.looseness ≤ Rule.property.looseness → ¬ left.Prefixed → ¬ e.Prefixed
    | .items .. => True := by
  induction h with
  | @pass r _ _ _ _ _ ih =>
    have tighter := looseness_tighter r
    exact fun low => ih ht (by omega)
  | @list r _ _ _ _ _ _ hr =>
    cases r with
    | tuple | collection => exact fun low => absurd low (by decide)
    | _ => cases hr
  | noItem | item => trivial
  | @chain r _ _ _ _ _ _ _ _ _ ix im =>
    rw [List.forall_mem_append] at ht
    have tighter := looseness_tighter r
    exact fun low => im ht.2 low (ix ht.1 (by omega))
  | done => exact fun _ bare => bare
  | @operator r _ _ _ _ _ _ _ _ _ ho =>
    cases r with
    | product | sum | conjunction | disjunction => exact fun low => absurd low (by decide)
    | _ => cases ho
  | conditional | compared | prefixed | typed => exact fun low => absurd low (by decide)
  | its _ _ _ _ im =>
    simp only [List.forall_mem_cons, List.forall_mem_append] at ht
    exact fun low => im ht.2.2 low id
  | filtered _ _ _ _ im =>
    simp only [List.forall_mem_cons, List.forall_mem_append] at ht
    exact fun low _ => im ht.2.2 low id
  | arrow hw | arrowExists hw => exact absurd hw (ht _ List.mem_cons_self)
  | sourced | phrase | applied | parens => exact fun _ => id
  | leaf hs =>
    intro _ prefixed
    unfold leaf? at hs
    split at hs <;> cases hs <;> exact prefixed

theorem Grammar.produced_sourced : Produced (·.kind ≠ .arrow) Shape.Sourced where
  conditional _ _ _ := trivial
  listed r _ _ := by cases r <;> trivial
  compared _ _ _ _ := trivial
  operator _ _ _ := trivial
  unary _ _ := trivial
  cast _ _ _ := trivial
  sourced _ ht hy := hy.not_prefixed ht (Nat.le_refl _)
  its _ := ⟨id, trivial⟩
  arrow _ _ other hw := absurd hw other
  filtered _ _ := trivial
  phrase _ _ _ := trivial
  parens _ := trivial
  leaf _ hs := by
    unfold leaf? at hs
    split at hs <;> cases hs <;> trivial

/-- A text that is the rendering of what it is read as. -/
theorem rendered_of_fixed {text : List Char} {t : Tree} (h : compile text = .ok t)
    (fixed : t.rootExpr.display.toList = text) : ∀ u ∈ part text, u.AsRendered := by
  obtain ⟨u, hu, same⟩ := compile_eq_ok h
  obtain ⟨_, -, -, hd, -⟩ := derives_of_parse hu
  rw [same, Expr.display_eq] at fixed
  have cost : ((part text).map Token.cost).sum ≤ weight text := by
    have light := hd.cost_le (formed_tokens _)
    rwa [Part.weight, Int.zero_add, Expr.weight, fixed] at light
  have tokens : ((part text).map fun t => weight t.text).sum = weight (rewriteKeywords text) :=
    (merges_tokens _).laid.weight_eq
  intro t ht
  by_contra other
  have heavier := List.sum_lt_sum (l := part text) (fun t => weight t.text) Token.cost
    (fun t _ => by unfold Token.cost; split <;> omega) ⟨t, ht, by rw [Token.cost, if_neg other]; omega⟩
  have rewritten := weight_le_rewriteKeywords text
  omega

end InventoryQuery
