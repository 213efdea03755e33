import Mathlib.Data.List.Forall2
import InventoryQuery.Proofs.Grammar.Accepted
import InventoryQuery.Proofs.Grammar.Relabelling
import InventoryQuery.Tree.Rendering

/-! A chain of properties read from either end. With `of` the source comes last and the rest of the
chain is nested in it, with arrows it comes first and every arrow takes what is there already as its
source. Parts that are selections by themselves are selections in both chains, and the two trees are
the same. -/

namespace InventoryQuery

/-- The forms that the rule `selection` gives. -/
def Expr.Chosen : Expr → Prop
  | .node (.phrase ..) | .node (.whose ..) | .node (.parens _) | .node (.string _)
  | .node (.number _) | .node .it | .node .marker => True
  | _ => False

/-- The place of the rule that strings the operator together. -/
def InfixOperator.rank : InfixOperator → Nat
  | times | divide | modulo | concat => 6
  | plus | minus => 7
  | relation _ => 8
  | conjunction => 9
  | disjunction => 10

def Expr.rank : Expr → Nat
  | .node (.property ..) => 3
  | .node (.cast ..) => 4
  | .node (.unary ..) => 5
  | .node (.binary operator ..) => operator.rank
  | .node (.tuple _) => 11
  | .node (.collection _) => 12
  | .node (.conditional ..) => 13
  | _ => 2

theorem Expr.rank_of_chosen {e : Expr} (h : e.Chosen) : e.rank = 2 := by
  obtain ⟨s⟩ := e
  cases s <;> first | rfl | exact h.elim

namespace Grammar

theorem Rule.rank_infixOf? {r : Rule} {k : Kind} {o : InfixOperator} (h : r.infixOf? k = some o) :
    o.rank = r.looseness := by
  cases r <;> cases k <;> first | cases h; rfl | cases h

theorem Rule.rank_listed {r : Rule} (h : r.separator?.isSome) (es : List Expr) :
    (Expr.node (r.listed es)).rank = r.looseness := by
  cases r <;> first | rfl | cases h

/-- A list of two items is one however many more there are. -/
theorem Derives.items_rank {p : Part} {ts : List Token} {e : Expr} {n : Nat}
    (h : Derives p ts e n) : ∀ r done, p = .items r done → r.separator?.isSome → 2 ≤ done.length →
      e.rank = r.looseness := by
  induction h with
  | @noItem r done =>
    intro _ _ same hr two
    cases same
    rcases done with _ | ⟨x, _ | ⟨y, done⟩⟩
    · simp at two
    · simp at two
    · exact Rule.rank_listed hr _
  | item _ _ _ _ ih =>
    intro _ _ same hr two
    cases same
    refine ih _ _ rfl hr ?_
    rw [List.length_append]
    omega
  | _ => nofun

/-- What a repetition makes is of its rule, unless nothing is repeated. -/
theorem Derives.more_rank {p : Part} {ts : List Token} {e : Expr} {n : Nat}
    (h : Derives p ts e n) :
    ∀ r left, p = .more r left → r.looseness ≤ left.rank → r.looseness ≤ e.rank := by
  induction h with
  | done =>
    intro _ _ same hl
    cases same
    exact hl
  | operator ho _ _ _ ih =>
    intro _ _ same _
    cases same
    exact ih _ _ rfl (Nat.le_of_eq (Rule.rank_infixOf? ho).symm)
  | arrow _ _ _ _ ih | filtered _ _ _ _ ih =>
    intro _ _ same _
    cases same
    exact ih _ _ rfl (by simp [Expr.rank, Rule.looseness])
  | typed _ _ _ ih | arrowExists _ _ _ ih =>
    intro _ _ same _
    cases same
    exact ih _ _ rfl (by simp [Expr.rank, Rule.looseness])
  | _ =>
    intro _ _ same _
    cases same

/-- A form has no part of a rule around it that is looser than the one that puts it together. -/
theorem Derives.tighten {r : Rule} {ts : List Token} {e : Expr} {n : Nat}
    (h : Derives (.rule r) ts e n) (he : e.rank < r.looseness) :
    Derives (.rule r.tighter) ts e n := by
  cases h with
  | conditional | prefixed | sourced => exact absurd he (by simp [Expr.rank, Rule.looseness])
  | compared => exact absurd he (by simp [Expr.rank, InfixOperator.rank, Rule.looseness])
  | pass _ h => exact h
  | list hr hx hd =>
    cases hd with
    | noItem => simpa [Rule.joined] using hx
    | item _ _ hd => exact absurd (hd.items_rank _ _ rfl hr (by simp)) (Nat.ne_of_lt he)
  | chain _ hx hd =>
    have loose {left : Expr} {ts : List Token} {m : Nat} (hd : Derives (.more r left) ts e m)
        (hl : r.looseness ≤ left.rank) : False :=
      absurd (hd.more_rank _ _ rfl hl) (Nat.not_le.2 he)
    cases hd with
    | done => simpa using hx
    | operator ho _ hd => exact (loose hd (Nat.le_of_eq (Rule.rank_infixOf? ho).symm)).elim
    | arrow _ _ hd | filtered _ _ hd => exact (loose hd (by simp [Expr.rank, Rule.looseness])).elim
    | typed _ _ hd | arrowExists _ _ hd =>
      exact (loose hd (by simp [Expr.rank, Rule.looseness])).elim
  | its _ _ hd =>
    exact absurd (hd.more_rank _ _ rfl (by simp [Expr.rank, Rule.looseness])) (Nat.not_le.2 he)
  | phrase | applied | parens | leaf => exact absurd he (by simp [Expr.rank, Rule.looseness])

/-- A form is derived from the rule that puts it together, and from every looser one. -/
theorem Derives.tightened {r q : Rule} {ts : List Token} {e : Expr} {n : Nat}
    (h : Derives (.rule r) ts e n) (hq : q.looseness ≤ r.looseness) (he : e.rank ≤ q.looseness) :
    Derives (.rule q) ts e n :=
  Rule.loosening (motive := fun r => Derives (.rule r) ts e n → Derives (.rule q) ts e n) hq id
    (fun _ hr tighter h => tighter (h.tighten (Nat.lt_of_le_of_lt he hr))) h

theorem Derives.selection_of_chosen {r : Rule} {ts : List Token} {e : Expr} {n : Nat}
    (h : Derives (.rule r) ts e n) (hr : 2 ≤ r.looseness) (he : e.Chosen) :
    Derives (.rule .selection) ts e n := h.tightened hr (Nat.le_of_eq (e.rank_of_chosen he))

end Grammar

open Grammar

/-- `a of (b of (c of ...))`. -/
def propertyChain : List Expr → Expr
  | [] => default
  | [e] => e
  | e :: es => .node (.property e (propertyChain es))

def accessed (source accessor : Expr) : Expr := .node (.property accessor source)

theorem propertyChain_cons {es : List Expr} (h : es ≠ []) (e : Expr) :
    propertyChain (e :: es) = .node (.property e (propertyChain es)) := by
  cases es with
  | nil => exact absurd rfl h
  | cons x es => rfl

theorem foldl_accessed (source : Expr) (accessors : List Expr) :
    accessors.foldl accessed source = propertyChain (accessors.reverse ++ [source]) := by
  induction accessors using List.reverseRecOn with
  | nil => rfl
  | append_singleton accessors a ih =>
    rw [List.foldl_append, ih, List.reverse_append, List.reverse_singleton, List.append_assoc,
      List.singleton_append, propertyChain_cons (by simp)]
    rfl

def Selects (c : List Token) (e : Expr) : Prop := ∃ n, Derives (.rule .selection) c e n

theorem derives_of_chain {w : Token} (hw : w.kind = .ofWord) {c : List Token} {e : Expr}
    (h : Selects c e) {cs : List (List Token)} {es : List Expr} (hs : List.Forall₂ Selects cs es) :
    ∃ n, Derives (.rule .property) (c ++ cs.flatMap (w :: ·)) (propertyChain (e :: es)) n := by
  obtain ⟨n, hd⟩ := h
  induction hs generalizing c e n with
  | nil => exact ⟨n, by simpa [propertyChain] using hd.loosen (r := .property)⟩
  | cons hx _ ih =>
    obtain ⟨k, hx⟩ := hx
    obtain ⟨m, hy⟩ := ih k hx
    exact ⟨_, by simpa [propertyChain] using Derives.sourced hw hd hy⟩

theorem derives_arrow_chain {w : Token} (hw : w.kind = .arrow) {cs : List (List Token)}
    {es : List Expr} (hs : List.Forall₂ Selects cs es) (left : Expr) :
    ∃ n, Derives (.more .property left) (cs.flatMap (w :: ·)) (es.foldl accessed left) n := by
  induction hs generalizing left with
  | nil => exact ⟨0, .done⟩
  | cons hx _ ih =>
    obtain ⟨k, hx⟩ := hx
    obtain ⟨m, hy⟩ := ih (accessed left _)
    exact ⟨_, by simpa using Derives.arrow hw hx hy⟩

/-- A text that is a selection by itself, and the expression it stands for. -/
def SelectionText (p : List Char) (e : Expr) : Prop :=
  ∃ t, compile p = .ok t ∧ t.rootExpr = e ∧ e.Chosen

/-- The tokens that the grammar reads in a text. -/
def part (p : List Char) : List Token := (tokens (rewriteKeywords p)).dropLast

theorem reading_part (p : List Char) : reading (part p) = Token.contents (rewriteKeywords p) := by
  rw [part, tokens, List.dropLast_concat]
  rfl

theorem SelectionText.selects {p : List Char} {e : Expr} (h : SelectionText p e) :
    Selects (part p) e := by
  obtain ⟨t, ht, rfl, chosen⟩ := h
  obtain ⟨u, hu, hr⟩ := compile_eq_ok ht
  rw [hr] at chosen ⊢
  obtain ⟨n, -, -, hd, -⟩ := derives_of_parse hu
  exact ⟨n, hd.selection_of_chosen (by decide) chosen⟩

theorem SelectionText.valid {p : List Char} {e : Expr} (h : SelectionText p e) :
    ∀ t ∈ lexemes (rewriteKeywords p), t.kind ≠ .invalid := by
  obtain ⟨t, ht, -⟩ := h
  exact valid_of_compile ht

theorem SelectionText.closed {p : List Char} {e : Expr} (h : SelectionText p e) :
    quoteOpen false p = false := by
  obtain ⟨t, ht, -⟩ := h
  exact quotes_closed_of_compile ht

def Joint.token : Joint → Token
  | of => ⟨.ofWord, "$of".toList, 0⟩
  | arrow => ⟨.arrow, "->".toList, 0⟩

def Joint.spaced (j : Joint) : List Char := ' ' :: (j.word ++ [' '])

theorem contents_joint (j : Joint) {text : List Char}
    (valid : ∀ t ∈ lexemes text, t.kind ≠ .invalid) (q : List Char) :
    Token.contents (text ++ ' ' :: (rewriteKeywords j.word ++ ' ' :: q)) =
      Token.contents text ++ (j.token.kind, j.token.text) :: Token.contents q := by
  have written : rewriteKeywords j.word = j.token.text := by cases j <;> decide +kernel
  rw [written]
  cases j with
  | of => exact Token.contents_joined (c := '$') (by rfl) (by decide) (by decide) valid q
  | arrow => exact Token.contents_joined (c := '-') (by rfl) (by decide) (by decide) valid q

/-- The parts of a chain and the joints between them are read one by one. -/
theorem contents_chain (j : Joint) {p : List Char} {e : Expr} (h : SelectionText p e)
    {ps : List (List Char)} {es : List Expr} (hs : List.Forall₂ SelectionText ps es) :
    Token.contents (rewriteKeywords (j.spaced.intercalate (p :: ps))) =
      reading (part p ++ (ps.map part).flatMap (j.token :: ·)) := by
  induction hs generalizing p e with
  | nil => simp [reading_part]
  | cons hx _ ih =>
    rename_i q f qs fs _
    have joined : j.spaced.intercalate (p :: q :: qs) = p ++ ' ' ::
        (j.word ++ ' ' :: j.spaced.intercalate (q :: qs)) := by
      simp [Joint.spaced]
    rw [joined, rewriteKeywords_joined j h.closed, contents_joint j h.valid, ih hx]
    simp only [List.map_cons, List.flatMap_cons, List.cons_append, reading_append, reading_cons,
      reading_part]

theorem rootExpr_of_reading {text : List Char} {t : Tree} (ht : compile text = .ok t)
    {c : List Token} {e : Expr} {n : Nat} (hc : Token.contents (rewriteKeywords text) = reading c)
    (hd : Derives (.rule .expression) c e n) : t.rootExpr = e := by
  obtain ⟨u, hu, hr⟩ := compile_eq_ok ht
  rw [← reading_part] at hc
  rcases parse_of_derives (hd.of_texts hc) with ⟨-, -, root, s, hs, holds⟩ | ⟨-, err, herr, -⟩
  · cases hu.symm.trans hs
    rw [hr, holds.rootExpr]
  · cases hu.symm.trans herr

theorem rootExpr_of_chain {ps : List (List Char)} {es : List Expr}
    (hs : List.Forall₂ SelectionText ps es) (hne : ps ≠ []) {t : Tree}
    (ht : compile (Joint.of.spaced.intercalate ps) = .ok t) : t.rootExpr = propertyChain es := by
  cases hs with
  | nil => exact absurd rfl hne
  | cons h hs =>
    have parts := List.forall₂_map_left_iff.2 (hs.imp fun _ _ => SelectionText.selects)
    obtain ⟨n, hd⟩ := derives_of_chain (w := Joint.of.token) rfl h.selects parts
    exact rootExpr_of_reading ht (contents_chain .of h hs) (hd.loosened (by decide))

theorem rootExpr_arrow_chain {ps : List (List Char)} {es : List Expr}
    (hs : List.Forall₂ SelectionText ps es) (hne : ps ≠ []) {t : Tree}
    (ht : compile (Joint.arrow.spaced.intercalate ps) = .ok t) :
    t.rootExpr = propertyChain es.reverse := by
  cases hs with
  | nil => exact absurd rfl hne
  | @cons p e ps es h hs =>
    have parts := List.forall₂_map_left_iff.2 (hs.imp fun _ _ => SelectionText.selects)
    obtain ⟨n, hx⟩ := h.selects
    obtain ⟨m, hd⟩ := derives_arrow_chain (w := Joint.arrow.token) rfl parts e
    rw [List.reverse_cons, ← foldl_accessed]
    exact rootExpr_of_reading ht (contents_chain .arrow h hs)
      ((Derives.chain (r := .property) rfl hx hd).loosened (by decide))

/-- The chain with `of` and the chain with arrows, the other way round, stand for the same
expression. -/
theorem chains_same_shape (ps : List (List Char)) (es : List Expr)
    (hs : List.Forall₂ SelectionText ps es) (hne : ps ≠ []) (t u : Tree)
    (ht : compile (" of ".toList.intercalate ps) = .ok t)
    (hu : compile (" -> ".toList.intercalate ps.reverse) = .ok u) :
    t.rootExpr.sameShape u.rootExpr ∧
      t.rootExpr = propertyChain es ∧ u.rootExpr = propertyChain es := by
  have left : t.rootExpr = propertyChain es := rootExpr_of_chain hs hne ht
  have right : u.rootExpr = propertyChain es := by
    have := rootExpr_arrow_chain (List.rel_reverse hs) (by simpa using hne) hu
    rwa [List.reverse_reverse] at this
  refine ⟨?_, left, right⟩
  rw [left, right, Expr.sameShape]
  exact beq_self_eq_true _

theorem chains_same_shape_of_it :
    let ps := [['n'], ['i', 't']]
    let es : List Expr := [.node (.phrase "n" none), .node .it]
    let t : Tree := ⟨#[⟨.phrase "n" none, ⟨0, 1⟩, some 1, true⟩, ⟨.it, ⟨6, 9⟩, none, false⟩,
      ⟨.property 0 1, ⟨0, 9⟩, none, false⟩], 2⟩
    let u : Tree := ⟨#[⟨.it, ⟨0, 3⟩, none, false⟩, ⟨.phrase "n" none, ⟨7, 8⟩, some 0, true⟩,
      ⟨.property 1 0, ⟨0, 8⟩, none, false⟩], 2⟩
    List.Forall₂ SelectionText ps es ∧ ps ≠ [] ∧ compile (" of ".toList.intercalate ps) = .ok t ∧
      compile (" -> ".toList.intercalate ps.reverse) = .ok u ∧
      t.rootExpr.sameShape u.rootExpr ∧
      t.rootExpr = propertyChain es ∧ u.rootExpr = propertyChain es := by
  intro ps es t u
  have n : compile ['n'] = .ok ⟨#[⟨.phrase "n" none, ⟨0, 1⟩, none, false⟩], 0⟩ := by decide +kernel
  have it : compile ['i', 't'] = .ok ⟨#[⟨.it, ⟨0, 3⟩, none, false⟩], 0⟩ := by decide +kernel
  have parts : List.Forall₂ SelectionText ps es :=
    .cons ⟨_, n, rfl, trivial⟩ (.cons ⟨_, it, rfl, trivial⟩ .nil)
  have left : compile (" of ".toList.intercalate ps) = .ok t := by decide +kernel
  have right : compile (" -> ".toList.intercalate ps.reverse) = .ok u := by decide +kernel
  exact ⟨parts, by decide, left, right, chains_same_shape ps es parts (by decide) t u left right⟩

end InventoryQuery
