import Mathlib.Algebra.Ring.Int.Defs
import InventoryQuery.Proofs.Keyword.Agreement
import InventoryQuery.Proofs.Rendering.Rereading
import InventoryQuery.Proofs.Token.Lossless

/-! A weight for texts that only grows on the way to a rendering. Articles weigh less than nothing and
the other blanks and marks that come and go weigh nothing; whatever can be written in several ways weighs
most in the way in which it is rendered. So a text that is its own rendering has nothing in it that is
written otherwise. -/

namespace InventoryQuery

open Grammar Lexeme Rewrite

/-- The characters that tell the ways of writing apart; the last one is the apostrophe. -/
def weights : List (Char × Int) :=
  [('s', 1), ('t', 1), ('f', 2), ('a', -1), ('.', -1), ('>', -1), ('r', -2), (Char.ofNat 39, -2)]

def charWeight (c : Char) : Int := (weights.lookup c).getD 0

def weight (text : List Char) : Int := (text.map charWeight).sum

theorem charWeight_of_isBlank {c : Char} (h : isBlank c) : charWeight c = 0 := by
  have solid : ∀ p ∈ weights, isBlank p.1 = false := by decide
  have absent : weights.lookup c = none := by
    rw [List.lookup_eq_none_iff]
    intro p hp
    have differ : c ≠ p.1 := by
      rintro rfl
      rw [solid p hp] at h
      cases h
    simpa using differ
  rw [charWeight, absent, Option.getD_none]

@[simp] theorem weight_nil : weight [] = 0 := rfl

@[simp] theorem weight_cons (c : Char) (u : List Char) : weight (c :: u) = charWeight c + weight u := by
  simp [weight]

@[simp] theorem weight_append (u v : List Char) : weight (u ++ v) = weight u + weight v := by
  simp [weight]

@[simp] theorem weight_reverse (u : List Char) : weight u.reverse = weight u := by
  simp [weight, List.sum_reverse]

theorem weight_eq_zero {u : List Char} (h : ∀ c ∈ u, isBlank c) : weight u = 0 := by
  induction u with
  | nil => rfl
  | cons c u ih =>
    obtain ⟨first, rest⟩ := List.forall_mem_cons.1 h
    rw [weight_cons, charWeight_of_isBlank first, ih rest, Int.add_zero]

/-- The blanks between words weigh nothing. -/
theorem weight_separated (u : List Char) : ((blankSeparated u).map weight).sum = weight u := by
  have go (word : List Char) : ((blankSeparated.go word u).map weight).sum = weight word + weight u := by
    induction u generalizing word with
    | nil => cases word <;> simp [blankSeparated.go, Int.add_comm]
    | cons c u ih =>
      unfold blankSeparated.go
      split
      · rename_i blank
        cases word <;> simp [ih, charWeight_of_isBlank blank, Int.add_comm]
      · rw [ih, weight_cons, weight_cons]
        omega
  rw [blankSeparated, go, weight_nil, Int.zero_add]

theorem weight_phraseName (u : List Char) : weight (phraseName u).toList = weight u := by
  have joined (words : List (List Char)) : weight ([' '].intercalate words) = (words.map weight).sum := by
    have blank : charWeight ' ' = 0 := by decide
    induction words with
    | nil => rfl
    | cons w words ih =>
      cases words with
      | nil => simp
      | cons v words => simp_all
  rw [phraseName, String.toList_ofList, joined, weight_separated]

theorem weight_spokenForm (u : List Char) : weight (spokenForm u) = weight u := by
  have sign : charWeight sentinel = 0 ∧ charWeight joiner = 0 ∧ charWeight ' ' = 0 := by decide
  have even (v : List Char) : weight (v.map fun c => if c = joiner then ' ' else c) = weight v := by
    induction v with
    | nil => rfl
    | cons c v ih =>
      rw [List.map_cons, weight_cons, weight_cons, ih]
      split <;> simp_all
  rw [spokenForm, even]
  induction u with
  | nil => rfl
  | cons c u ih =>
    rw [List.dropWhile_cons]
    split
    · simp_all
    · rfl

/-- Rules that write no less than they take leave a text as heavy as it was. -/
theorem weight_le_applyFrom {rules : List Rewrite} (hp : ∀ r ∈ rules, r.Plain) (hs : ∀ r ∈ rules, r.Solid)
    (heavy : ∀ r ∈ rules, (r.words.map weight).sum ≤ weight r.output) (inString fresh : Bool) (cs : List Char) :
    weight cs ≤ weight (applyFrom rules 0 inString fresh cs) := by
  induction inString, fresh, cs using pass_induction hp with
  | nil => exact Int.le_refl _
  | copied inString fresh c cs copies ih =>
    rw [applyFrom_copied copies, weight_cons, weight_cons]
    exact Int.add_le_add_left ih _
  | replaced r w rest taken ih =>
    obtain ⟨mem, reached⟩ := longest?_mem taken.found
    have words := separated_of_reach? (fun v hv => ⟨((hp r mem).2.1 v hv).1, hs r mem v hv⟩) reached
    rw [List.take_left] at words
    have outcome := heavy r mem
    rw [← words, weight_separated] at outcome
    rw [taken.applyFrom_eq, weight_append, weight_append]
    exact Int.add_le_add outcome (ih _)

theorem weight_le_rewriteKeywords (text : List Char) : weight text ≤ weight (rewriteKeywords text) :=
  Int.le_trans (weight_le_applyFrom plain_dropArticles solid_dropArticles (by decide +kernel) _ _ _)
    (weight_le_applyFrom plain_writeKeywords solid_writeKeywords (by decide +kernel) _ _ _)

theorem Laid.weight_eq {offset : Nat} {text : List Char} {ts : List Token} (h : Laid offset text ts) :
    (ts.map fun t => weight t.text).sum = weight text := by
  induction h with
  | blanks spaces => exact (weight_eq_zero fun c hc => isBlank_of_isSpace (spaces c hc)).symm
  | token spaces _ ih =>
    have gap := weight_eq_zero fun c hc => isBlank_of_isSpace (spaces c hc)
    simp [ih, gap]

theorem Token.Formed.spelled {t : Token} (h : t.Formed)
    (hk : t.kind ∉ [Kind.phrase, .numeral, .string, .blank, .word, .invalid, .endOfInput]) :
    (t.text, t.kind) ∈ spellings := by
  unfold Token.Formed at h
  split at h <;> simp_all

/-- The token is written as renderings write it, if its kind is rendered at all. -/
def Token.AsRendered (t : Token) : Prop :=
  t.kind ∉ [Kind.arrow, .itsWord, .notExistsWord] ∧ (t.kind = .existsWord → t.text = rewriteKeywords "exists".toList)

instance (t : Token) : Decidable t.AsRendered := inferInstanceAs (Decidable (_ ∧ _))

/-- What a token weighs, and one more if it is rendered in another way. -/
def Token.cost (t : Token) : Int := weight t.text + if t.AsRendered then 0 else 1

/-- What the expression weighs when it is rendered. -/
def Expr.weight (e : Expr) : Int := InventoryQuery.weight (e.spell id)

def renderedForms : List (Kind × String) :=
  spokenOperators ++ [(.itWord, "it"), (.comma, ","), (.semicolon, ";"), (.leftParen, "("), (.rightParen, ")"),
    (.question, "?")]

section cost

variable {t : Token} (ht : t.Formed)
include ht

theorem cost_le_form {k : Kind} {w : String} (hw : (k, w) ∈ renderedForms) (hk : t.kind = k) :
    t.cost ≤ weight w.toList := by
  have table : ∀ p ∈ renderedForms, p.1 ∉ [Kind.phrase, .numeral, .string, .blank, .word, .invalid, .endOfInput] ∧
      ∀ s ∈ spellings, s.2 = p.1 → Token.cost ⟨s.2, s.1, 0⟩ ≤ weight p.2.toList := by decide +kernel
  obtain ⟨fixed, light⟩ := table _ hw
  exact light _ (ht.spelled (hk ▸ fixed)) hk

/-- Arrows, and the operators that stand for two words or for other words. -/
theorem cost_le_otherwise :
    (t.kind = .arrow → t.cost ≤ 0) ∧ (t.kind = .itsWord → t.cost ≤ weight "of".toList + weight "it".toList) ∧
      (t.kind = .notExistsWord → t.cost ≤ weight "not exists".toList) := by
  have table : ∀ s ∈ spellings, (s.2 = .arrow → Token.cost ⟨s.2, s.1, 0⟩ ≤ 0) ∧
      (s.2 = .itsWord → Token.cost ⟨s.2, s.1, 0⟩ ≤ weight "of".toList + weight "it".toList) ∧
      (s.2 = .notExistsWord → Token.cost ⟨s.2, s.1, 0⟩ ≤ weight "not exists".toList) := by decide +kernel
  have spelled (hk : t.kind ∈ [Kind.arrow, .itsWord, .notExistsWord]) : (t.text, t.kind) ∈ spellings := by
    refine ht.spelled fun other => ?_
    simp only [List.mem_cons, List.not_mem_nil, or_false] at hk other
    rcases hk with hk | hk | hk <;> simp [hk] at other
  exact ⟨fun hk => (table _ (spelled (by simp [hk]))).1 hk, fun hk => (table _ (spelled (by simp [hk]))).2.1 hk,
    fun hk => (table _ (spelled (by simp [hk]))).2.2 hk⟩

end cost

theorem cost_of_rendered {t : Token} (h : t.AsRendered) : t.cost = weight t.text := by
  rw [Token.cost, if_pos h, Int.add_zero]

theorem weight_spellAll {c : Char} (hc : charWeight c = 0) (es : List Expr) :
    weight (Expr.spellAll id c es) = (es.map Expr.weight).sum := by
  have blank : charWeight ' ' = 0 := by decide
  induction es with
  | nil => rfl
  | cons e es ih =>
    cases es with
    | nil => simp [Expr.spellAll, Expr.weight]
    | cons f es => simp [Expr.spellAll, Expr.weight, hc, blank] at ih ⊢; omega

theorem weight_joined (r : Rule) (es : List Expr) : (r.joined es).weight = (es.map Expr.weight).sum := by
  have listed : (Expr.node (r.listed es)).weight = (es.map Expr.weight).sum := by
    cases r <;> exact weight_spellAll (by decide) es
  match es with
  | [] => exact listed
  | [e] => simp [Rule.joined]
  | _ :: _ :: _ => exact listed

section forms

variable (a b c : Expr)

theorem weight_blank : charWeight ' ' = 0 := by decide

@[simp] theorem weight_property : (Expr.node (.property a b)).weight = a.weight + (weight "of".toList + b.weight) := by
  simp [Expr.weight, Expr.spell, weight_blank, Int.add_assoc]

@[simp] theorem weight_whose : (Expr.node (.whose a b)).weight = a.weight + (weight "whose".toList + b.weight) := by
  simp [Expr.weight, Expr.spell, weight_blank, Int.add_assoc]

@[simp] theorem weight_cast (name : String) :
    (Expr.node (.cast a name)).weight = a.weight + (weight "as".toList + weight name.toList) := by
  simp [Expr.weight, Expr.spell, weight_blank, Int.add_assoc]

@[simp] theorem weight_binary (o : InfixOperator) :
    (Expr.node (.binary o a b)).weight = a.weight + (weight o.spelling.toList + b.weight) := by
  simp [Expr.weight, Expr.spell, weight_blank]

@[simp] theorem weight_unary (o : PrefixOperator) :
    (Expr.node (.unary o a)).weight = weight o.spelling.toList + a.weight := by
  have sign : charWeight '-' = 0 := by decide
  cases o <;> simp [Expr.weight, Expr.spell, PrefixOperator.spelling, weight_blank, Int.add_assoc, sign]

@[simp] theorem weight_parens : (Expr.node (.parens a)).weight = a.weight := by
  have signs : charWeight '(' = 0 ∧ charWeight ')' = 0 := by decide
  simp [Expr.weight, Expr.spell, signs]

@[simp] theorem weight_conditional : (Expr.node (.conditional a b c)).weight = weight "if".toList + (a.weight +
    (weight "then".toList + (b.weight + (weight "else".toList + c.weight)))) := by
  simp [Expr.weight, Expr.spell, weight_blank, Int.add_assoc]

@[simp] theorem weight_phrase (name : String) (argument : Option Expr) : (Expr.node (.phrase name argument)).weight =
    weight name.toList + argument.elim 0 Expr.weight := by
  cases argument <;> simp [Expr.weight, Expr.spell, weight_blank]

end forms

section cost

variable {t : Token}

theorem cost_of_phrase (h : t.kind = .phrase) : t.cost = weight (phraseName t.text).toList := by
  rw [cost_of_rendered (by simp [Token.AsRendered, h]), weight_phraseName]

theorem cost_of_relation (h : t.kind = .relation) : t.cost = weight (spokenForm t.text) := by
  rw [cost_of_rendered (by simp [Token.AsRendered, h]), weight_spokenForm]

variable (ht : t.Formed)
include ht

theorem cost_le_prefix {o : PrefixOperator} (ho : unaryOf? t.kind = some o) : t.cost ≤ weight o.spelling.toList := by
  cases hk : t.kind <;> rw [hk] at ho <;> cases ho
  · exact cost_le_form ht (by decide) hk
  · exact cost_le_form ht (by decide) hk
  · exact cost_le_form ht (by decide) hk
  · exact (cost_le_otherwise ht).2.2 hk

theorem cost_le_infix {r : Rule} {o : InfixOperator} (ho : r.infixOf? t.kind = some o) :
    t.cost ≤ weight o.spelling.toList := by
  refine cost_le_form ht (List.mem_append_left _ (mem_spokenOperators fun words same => ?_)) (kind_of_infixOf? ho)
  exact Rule.infixOf?_ne_relation r _ words (same ▸ ho)

theorem cost_le_separator {r : Rule} (hs : r.separator? = some t.kind) : t.cost ≤ 0 := by
  cases r with
  | collection => exact cost_le_form ht (w := ";") (by decide) (Option.some_inj.1 hs).symm
  | tuple => exact cost_le_form ht (w := ",") (by decide) (Option.some_inj.1 hs).symm
  | _ => cases hs

theorem cost_le_leaf {s : Shape Expr} (h : leaf? t = some s) : t.cost ≤ (Expr.node s).weight := by
  unfold leaf? at h
  split at h <;> cases h <;> rename_i kind
  · rw [Token.Formed, kind] at ht
    obtain ⟨body, text, -⟩ := ht
    rw [cost_of_rendered (by simp [Token.AsRendered, kind]), text]
    simp [Expr.weight, Expr.spell, unquoted]
  · rw [cost_of_rendered (by simp [Token.AsRendered, kind])]
    simp [Expr.weight, Expr.spell]
  · exact cost_le_form ht (w := "it") (by decide) kind
  · exact cost_le_form ht (w := "?") (by decide) kind

end cost

theorem unaryOf?_of_existenceOf? {k : Kind} {o : PrefixOperator} (h : existenceOf? k = some o) :
    unaryOf? k = some o := by
  cases k <;> cases h <;> rfl

@[simp] def Grammar.Part.weight : Part → Int
  | .rule _ => 0
  | .more _ left => left.weight
  | .items _ done => (done.map Expr.weight).sum

/-- An expression is rendered with no less than its tokens cost. -/
theorem Grammar.Derives.cost_le {p : Part} {ts : List Token} {e : Expr} {n : Nat} (h : Derives p ts e n)
    (ht : ∀ t ∈ ts, t.Formed) : p.weight + (ts.map Token.cost).sum ≤ e.weight := by
  induction h with
  | conditional hi hj hk _ _ _ ic ia ib =>
    simp only [List.forall_mem_cons, List.forall_mem_append] at ht
    obtain ⟨fi, hc, fj, ha, fk, hb⟩ := ht
    have i := cost_le_form fi (w := "if") (by decide) hi
    have j := cost_le_form fj (w := "then") (by decide) hj
    have k := cost_le_form fk (w := "else") (by decide) hk
    have c := ic hc
    have a := ia ha
    have b := ib hb
    simp at i j k c a b ⊢
    omega
  | pass _ _ ih => exact ih ht
  | list _ _ _ ix im | chain _ _ _ ix im =>
    rw [List.forall_mem_append] at ht
    have x := ix ht.1
    have m := im ht.2
    simp at x m ⊢
    omega
  | noItem => simp [weight_joined]
  | item hs _ _ ix im =>
    simp only [List.forall_mem_cons, List.forall_mem_append] at ht
    have separator := cost_le_separator ht.1 hs
    have x := ix ht.2.1
    have m := im ht.2.2
    simp at x m ⊢
    omega
  | compared ho _ _ ix iy =>
    simp only [List.forall_mem_cons, List.forall_mem_append] at ht
    have o := cost_of_relation ho
    have x := ix ht.1
    have y := iy ht.2.2
    simp [InfixOperator.spelling] at x y ⊢
    omega
  | done => simp
  | operator ho _ _ ix im =>
    simp only [List.forall_mem_cons, List.forall_mem_append] at ht
    have o := cost_le_infix ht.1 ho
    have x := ix ht.2.1
    have m := im ht.2.2
    simp at x m ⊢
    omega
  | prefixed ho _ ih =>
    simp only [List.forall_mem_cons] at ht
    have o := cost_le_prefix ht.1 ho
    have x := ih ht.2
    simp at x ⊢
    omega
  | typed ha hk _ ih =>
    simp only [List.forall_mem_cons] at ht
    have a := cost_le_form ht.1 (w := "as") (by decide) ha
    have name := cost_of_phrase hk
    have m := ih ht.2.2
    simp at a m ⊢
    omega
  | sourced ho _ _ ix iy =>
    simp only [List.forall_mem_cons, List.forall_mem_append] at ht
    have o := cost_le_form ht.2.1 (w := "of") (by decide) ho
    have x := ix ht.1
    have y := iy ht.2.2
    simp at o x y ⊢
    omega
  | its hi _ _ ix im =>
    simp only [List.forall_mem_cons, List.forall_mem_append] at ht
    have i := (cost_le_otherwise ht.1).2.1 hi
    have it : (Expr.node .it).weight = weight "it".toList := rfl
    have x := ix ht.2.1
    have m := im ht.2.2
    simp at i it x m ⊢
    omega
  | arrow hw _ _ ix im =>
    simp only [List.forall_mem_cons, List.forall_mem_append] at ht
    have w := (cost_le_otherwise ht.1).1 hw
    have light : 0 ≤ weight "of".toList := by decide
    have x := ix ht.2.1
    have m := im ht.2.2
    simp at light x m ⊢
    omega
  | arrowExists hw ho _ ih =>
    simp only [List.forall_mem_cons] at ht
    have w := (cost_le_otherwise ht.1).1 hw
    have o := cost_le_prefix ht.2.1 (unaryOf?_of_existenceOf? ho)
    have m := ih ht.2.2
    simp at m ⊢
    omega
  | filtered hw _ _ ix im =>
    simp only [List.forall_mem_cons, List.forall_mem_append] at ht
    have w := cost_le_form ht.1 (w := "whose") (by decide) hw
    have x := ix ht.2.1
    have m := im ht.2.2
    simp at w x m ⊢
    omega
  | phrase hk => simp [cost_of_phrase hk]
  | applied hk _ ih =>
    simp only [List.forall_mem_cons] at ht
    have x := ih ht.2
    simp [cost_of_phrase hk] at x ⊢
    omega
  | parens ho hc _ ih =>
    simp only [List.forall_mem_cons, List.forall_mem_append] at ht
    have l := cost_le_form ht.1 (w := "(") (by decide) ho
    have r := cost_le_form ht.2.2.1 (w := ")") (by decide) hc
    have signs : weight "(".toList = 0 ∧ weight ")".toList = 0 := by decide
    have x := ih ht.2.1
    simp at l r signs x ⊢
    omega
  | leaf hs =>
    simp only [List.forall_mem_cons] at ht
    have l := cost_le_leaf ht.1 hs
    simpa using l

end InventoryQuery
