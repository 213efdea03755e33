import InventoryQuery.Proofs.Rendering.Tokens
import InventoryQuery.Proofs.Grammar.Completeness

/-! The grammar takes the tokens of a rendering for an expression that is rendered the same. It need
not be the expression itself: `exists no` comes back as two operators, and what an arrow has put
before a cast is read after it. A property of what a prefix operator gives cannot be written at all
without parentheses, since the operator would have to stand behind `of`. -/

namespace InventoryQuery

open Grammar Token

namespace Expr

/-- The expression begins with a prefix operator. -/
def Prefixed : Expr → Prop
  | .node (.unary ..) => True
  | _ => False

end Expr

/-- The source of a property can be written behind `of`. -/
def Shape.Sourced : Shape Expr → Prop
  | .property _ source => ¬ source.Prefixed
  | _ => True

namespace Grammar

def Part.Seen (P : Expr → Prop) : Part → Prop
  | .rule _ => True
  | .more _ left => P left
  | .items _ done => done ≠ [] ∧ ∀ e ∈ done, P e

theorem Derives.primary {ts : List Token} {e : Expr} {n : Nat} (h : Derives (.rule .primary) ts e n) :
    e.Primary := by
  cases h with
  | parens => trivial
  | leaf hs =>
    unfold leaf? at hs
    split at hs <;> cases hs <;> trivial
  | pass hp => cases hp
  | list hs => cases hs
  | chain hr => cases hr

/-- A property of forms that every production makes, out of tokens that are `ok`. -/
structure Produced (ok : Token → Prop) (P : Shape Expr → Prop) : Prop where
  conditional (c a b : Expr) : P (.conditional c a b)
  listed (r : Rule) {items : List Expr} : items ≠ [] → P (r.listed items)
  compared {t : Token} (x y : Expr) : ok t → t.kind = .relation →
    P (.binary (.relation (String.ofList (spokenForm t.text))) x y)
  operator {r : Rule} {k : Kind} {o : InfixOperator} (x y : Expr) : r.infixOf? k = some o → P (.binary o x y)
  unary (o : PrefixOperator) (x : Expr) : P (.unary o x)
  cast {t : Token} (x : Expr) : ok t → t.kind = .phrase → P (.cast x (phraseName t.text))
  sourced {ys : List Token} {y : Expr} {n : Nat} (x : Expr) : (∀ t ∈ ys, ok t) →
    Derives (.rule .property) ys y n → P (.property x y)
  its (x : Expr) : P (.property x (.node .it)) ∧ P .it
  arrow {w : Token} (x y : Expr) : ok w → w.kind = .arrow → P (.property x y)
  filtered (x y : Expr) : P (.whose x y)
  phrase {t : Token} {argument : Option Expr} : ok t → t.kind = .phrase → (∀ a ∈ argument, a.Primary) →
    P (.phrase (phraseName t.text) argument)
  parens (x : Expr) : P (.parens x)
  leaf {t : Token} {s : Shape Expr} : ok t → leaf? t = some s → P s

theorem children_leaf {t : Token} {s : Shape Expr} (h : leaf? t = some s) : s.children = [] := by
  unfold leaf? at h
  split at h <;> cases h <;> rfl

theorem Derives.everywhere {ok : Token → Prop} {P : Shape Expr → Prop} (made : Produced ok P) {p : Part}
    {ts : List Token} {e : Expr} {n : Nat} (h : Derives p ts e n) (ht : ∀ t ∈ ts, ok t)
    (hp : p.Seen (Expr.Everywhere P)) : e.Everywhere P := by
  induction h with
  | @conditional _ _ _ _ _ _ c a b _ _ _ _ _ _ _ _ _ ic ia ib =>
    simp only [List.forall_mem_cons, List.forall_mem_append] at ht
    obtain ⟨-, hc, -, ha, -, hb⟩ := ht
    exact .node (made.conditional c a b) (by simpa [Shape.children] using ⟨ic hc trivial, ia ha trivial, ib hb trivial⟩)
  | pass _ _ ih => exact ih ht trivial
  | list _ _ _ ix im =>
    obtain ⟨hx, hm⟩ := List.forall_mem_append.1 ht
    exact im hm ⟨by simp, by simpa using ix hx trivial⟩
  | @noItem r done =>
    obtain ⟨hne, parts⟩ := hp
    rcases done with _ | ⟨x, _ | ⟨y, done⟩⟩
    · exact absurd rfl hne
    · exact parts x (by simp)
    · exact .node (made.listed r hne) (by rwa [Rule.children_listed])
  | item _ _ _ ix im =>
    simp only [List.forall_mem_cons, List.forall_mem_append] at ht
    obtain ⟨-, hx, hm⟩ := ht
    refine im hm ⟨by simp, fun e he => ?_⟩
    rcases List.mem_append.1 he with he | he
    · exact hp.2 e he
    · cases List.mem_singleton.1 he
      exact ix hx trivial
  | compared ho _ _ ix iy =>
    simp only [List.forall_mem_cons, List.forall_mem_append] at ht
    obtain ⟨hx, relation, hy⟩ := ht
    exact .node (made.compared _ _ relation ho) (by simpa [Shape.children] using ⟨ix hx trivial, iy hy trivial⟩)
  | chain _ _ _ ix im =>
    obtain ⟨hx, hm⟩ := List.forall_mem_append.1 ht
    exact im hm (ix hx trivial)
  | done => exact hp
  | operator ho _ _ ix im =>
    simp only [List.forall_mem_cons, List.forall_mem_append] at ht
    obtain ⟨-, hx, hm⟩ := ht
    exact im hm (.node (made.operator _ _ ho) (by simpa [Shape.children] using ⟨hp, ix hx trivial⟩))
  | prefixed _ _ ih =>
    have part := ih (fun t hm => ht t (List.mem_cons_of_mem _ hm)) trivial
    exact .node (made.unary _ _) (by simpa [Shape.children] using part)
  | typed _ hk _ ih =>
    simp only [List.forall_mem_cons] at ht
    obtain ⟨-, name, hm⟩ := ht
    exact ih hm (.node (made.cast _ name hk) (by simpa [Shape.children, Part.Seen] using hp))
  | sourced _ _ hy ix iy =>
    simp only [List.forall_mem_cons, List.forall_mem_append] at ht
    obtain ⟨tx, -, ty⟩ := ht
    exact .node (made.sourced _ ty hy) (by simpa [Shape.children] using ⟨ix tx trivial, iy ty trivial⟩)
  | its _ _ _ ix im =>
    simp only [List.forall_mem_cons, List.forall_mem_append] at ht
    obtain ⟨-, hx, hm⟩ := ht
    obtain ⟨property, it⟩ := made.its _
    have source : (Expr.node .it).Everywhere P := .node it (by simp [Shape.children])
    exact im hm (.node property (by simpa [Shape.children] using ⟨ix hx trivial, source⟩))
  | arrow hw _ _ ix im =>
    simp only [List.forall_mem_cons, List.forall_mem_append] at ht
    obtain ⟨first, hx, hm⟩ := ht
    exact im hm (.node (made.arrow _ _ first hw) (by simpa [Shape.children] using ⟨ix hx trivial, hp⟩))
  | arrowExists _ _ _ ih =>
    simp only [List.forall_mem_cons] at ht
    exact ih ht.2.2 (.node (made.unary _ _) (by simpa [Shape.children, Part.Seen] using hp))
  | filtered _ _ _ ix im =>
    simp only [List.forall_mem_cons, List.forall_mem_append] at ht
    obtain ⟨-, hx, hm⟩ := ht
    exact im hm (.node (made.filtered _ _) (by simpa [Shape.children] using ⟨hp, ix hx trivial⟩))
  | phrase hk =>
    exact .node (made.phrase (ht _ List.mem_cons_self) hk (by simp)) (by simp [Shape.children])
  | applied hk hx ih =>
    simp only [List.forall_mem_cons] at ht
    obtain ⟨name, hm⟩ := ht
    exact .node (made.phrase name hk (by rintro _ ⟨⟩; exact hx.primary))
      (by simpa [Shape.children] using ih hm trivial)
  | parens _ _ _ ih =>
    simp only [List.forall_mem_cons, List.forall_mem_append] at ht
    exact .node (made.parens _) (by simpa [Shape.children] using ih ht.2.1 trivial)
  | leaf hs => exact .node (made.leaf (ht _ List.mem_cons_self) hs) (by simp [children_leaf hs])

/-- No chain is made of relations. -/
theorem Rule.infixOf?_ne_relation (r : Rule) (k : Kind) (words : String) :
    r.infixOf? k ≠ some (.relation words) := by
  cases r <;> cases k <;> nofun

theorem produced_worded : Produced Token.Formed Shape.Worded where
  conditional _ _ _ := trivial
  listed r _ h := by cases r <;> exact h
  compared _ _ spelled hk := by
    unfold Formed at spelled
    rw [hk] at spelled
    exact ⟨_, spelled, rfl⟩
  operator _ _ ho := by
    cases ‹InfixOperator› with
    | relation words => exact absurd ho (Rule.infixOf?_ne_relation _ _ words)
    | _ => trivial
  unary _ _ := trivial
  cast _ name hk := by
    unfold Formed at name
    rwa [hk] at name
  sourced _ _ _ := trivial
  its _ := ⟨trivial, trivial⟩
  arrow _ _ _ _ := trivial
  filtered _ _ := trivial
  phrase name hk primary := by
    unfold Formed at name
    rw [hk] at name
    exact ⟨name, primary⟩
  parens _ := trivial
  leaf formed hs := by
    unfold leaf? at hs
    unfold Formed at formed
    split at hs <;> cases hs <;> rename_i kind <;> rw [kind] at formed
    · obtain ⟨body, text, clean⟩ := formed
      rw [Shape.Worded, unquoted, text, String.toList_ofList]
      simpa using clean
    · rwa [Shape.Worded, String.toList_ofList]
    · trivial
    · trivial

theorem Derives.more_append {r : Rule} {left : Expr} {p : Part} {ts us : List Token} {e f : Expr}
    {n m : Nat} (h : Derives p ts e n) (hp : p = .more r left) (hu : Derives (.more r e) us f m) :
    ∃ k, Derives (.more r left) (ts ++ us) f k := by
  induction h generalizing left with
  | done => cases hp; exact ⟨m, hu⟩
  | operator ho hx _ _ ih =>
    cases hp
    obtain ⟨k, hk⟩ := ih rfl hu
    exact ⟨_, by simpa using Derives.operator ho hx hk⟩
  | typed ha hk _ ih =>
    cases hp
    obtain ⟨k, hm⟩ := ih rfl hu
    exact ⟨_, .typed ha hk hm⟩
  | arrow hw hx _ _ ih =>
    cases hp
    obtain ⟨k, hk⟩ := ih rfl hu
    exact ⟨_, by simpa using Derives.arrow hw hx hk⟩
  | arrowExists hw ht _ ih =>
    cases hp
    obtain ⟨k, hm⟩ := ih rfl hu
    exact ⟨_, .arrowExists hw ht hm⟩
  | filtered hw hx _ _ ih =>
    cases hp
    obtain ⟨k, hk⟩ := ih rfl hu
    exact ⟨_, by simpa using Derives.filtered hw hx hk⟩
  | _ => cases hp

/-- A chain goes on at its end. -/
theorem Derives.chain_append {r : Rule} {ts us : List Token} {e f : Expr} {n m : Nat}
    (h : Derives (.rule r) ts e n) (hr : r.repeats) (hp : r ≠ .property)
    (hu : Derives (.more r e) us f m) : ∃ k, Derives (.rule r) (ts ++ us) f k := by
  cases h with
  | chain _ hx hm =>
    obtain ⟨k, hk⟩ := hm.more_append rfl hu
    exact ⟨_, by simpa using Derives.chain hr hx hk⟩
  | sourced | its => exact absurd rfl hp
  | pass hp => cases r <;> cases hr <;> cases hp
  | list hs => cases r <;> cases hr <;> cases hs
  | _ => cases hr

/-- A part is nested less deeply than the expression is high. -/
def Part.Within (e : Expr) (n : Nat) : Part → Prop
  | .rule _ => n < e.height
  | .more _ left => n < e.height ∧ left.height ≤ e.height
  | .items _ done => done ≠ [] → n < e.height ∧ ∀ x ∈ done,
      x.height ≤ e.height ∧ (2 ≤ done.length → x.height < e.height)

theorem Derives.within {p : Part} {ts : List Token} {e : Expr} {n : Nat} (h : Derives p ts e n) :
    p.Within e n := by
  induction h with
  | conditional _ _ _ _ _ _ ic ia ib =>
    simp only [Part.Within, Expr.height, Expr.heightBelow] at ic ia ib ⊢
    omega
  | pass _ _ ih => exact ih
  | list _ _ _ ix im =>
    obtain ⟨nested, item⟩ := im (by simp)
    have low := (item _ List.mem_cons_self).1
    simp only [Part.Within] at ix ⊢
    omega
  | @noItem r done =>
    intro hne
    rcases done with _ | ⟨x, _ | ⟨y, done⟩⟩
    · exact absurd rfl hne
    · exact ⟨by simp [Rule.joined, Expr.height_pos], by simp [Rule.joined]⟩
    · refine ⟨by simp [Rule.joined, Expr.height_pos], fun z hz => ?_⟩
      have child : z ∈ (r.listed (x :: y :: done)).children := by rwa [Rule.children_listed]
      have := Expr.height_lt_of_mem_children child
      exact ⟨this.le, fun _ => this⟩
  | @item r done _ _ _ x _ _ _ _ _ _ ix im =>
    intro hne
    obtain ⟨nested, items⟩ := im (by simp)
    have two : 2 ≤ (done ++ [x]).length := by
      have := List.length_pos_iff.2 hne
      simp
      omega
    have last := (items x (by simp)).2 two
    simp only [Part.Within] at ix
    refine ⟨by omega, fun z hz => ?_⟩
    have low := (items z (List.mem_append_left _ hz)).2 two
    exact ⟨low.le, fun _ => low⟩
  | compared _ _ _ ix iy =>
    simp only [Part.Within, Expr.height, Expr.heightBelow] at ix iy ⊢
    omega
  | chain _ _ _ ix im =>
    simp only [Part.Within] at ix im ⊢
    omega
  | done => exact ⟨Expr.height_pos _, le_rfl⟩
  | operator _ _ _ ix im | arrow _ _ _ ix im | filtered _ _ _ ix im | its _ _ _ ix im =>
    simp only [Part.Within, Expr.height, Expr.heightBelow] at ix im ⊢
    omega
  | prefixed _ _ ih | applied _ _ ih | parens _ _ _ ih =>
    simp only [Part.Within, Expr.height, Expr.heightBelow] at ih ⊢
    omega
  | typed _ _ _ ih | arrowExists _ _ _ ih =>
    simp only [Part.Within, Expr.height, Expr.heightBelow] at ih ⊢
    omega
  | sourced _ _ _ ix iy =>
    simp only [Part.Within, Expr.height, Expr.heightBelow] at ix iy ⊢
    omega
  | phrase | leaf => exact Expr.height_pos _

/-- The rule gives these tokens, for an expression that is rendered like this and is no higher. -/
def Gives (r : Rule) (ts : List Token) (text : String) (k : Nat) : Prop :=
  ∃ e n, Derives (.rule r) ts e n ∧ e.display = text ∧ e.height ≤ k

theorem Gives.mono {r : Rule} {ts : List Token} {text : String} {k l : Nat} (h : Gives r ts text k)
    (hl : k ≤ l) : Gives r ts text l := by
  obtain ⟨e, n, hd, he, hk⟩ := h
  exact ⟨e, n, hd, he, hk.trans hl⟩

theorem Gives.loosen {r : Rule} {ts : List Token} {text : String} {k : Nat}
    (h : Gives r.tighter ts text k) : Gives r ts text k := by
  obtain ⟨e, n, hd, he⟩ := h
  exact ⟨e, n, hd.loosen, he⟩

/-- The rule gives them once the operators that arrows have put in front are taken away. -/
inductive Lifted (r : Rule) : List Token → String → Nat → Prop
  | base {ts : List Token} {text : String} {k : Nat} : Gives r ts text k → Lifted r ts text k
  | existence {ts : List Token} {text : String} {k : Nat} : Lifted r ts text k →
    Lifted r (spokenToken .existsWord "exists" :: ts) ("exists" ++ " " ++ text) (k + 1)
  | negation {ts : List Token} {text : String} {k : Nat} : Lifted r ts text k →
    Lifted r (spokenToken .notWord "not" :: ts) ("not" ++ " " ++ text) (k + 1)

section

variable {ts : List Token} {text : String} {k l : Nat}

theorem Lifted.mono {r : Rule} (h : Lifted r ts text k) (hl : k ≤ l) : Lifted r ts text l := by
  induction h generalizing l with
  | base h => exact .base (h.mono hl)
  | existence _ ih =>
    obtain ⟨l, rfl⟩ := Nat.exists_eq_add_of_le' (Nat.one_le_of_lt hl)
    exact .existence (ih (Nat.le_of_succ_le_succ hl))
  | negation _ ih =>
    obtain ⟨l, rfl⟩ := Nat.exists_eq_add_of_le' (Nat.one_le_of_lt hl)
    exact .negation (ih (Nat.le_of_succ_le_succ hl))

theorem Gives.prefixed {c : Kind} {w : String} {o : PrefixOperator}
    (ho : unaryOf? c = some o) (h : Gives .unary ts text k) :
    ∃ e n, Derives (.rule .unary) (spokenToken c w :: ts) (.node (.unary o e)) n ∧
      e.display = text ∧ e.height + 1 ≤ k + 1 := by
  obtain ⟨e, n, hd, he, hk⟩ := h
  exact ⟨e, _, .prefixed (t := spokenToken c w) ho hd, he, Nat.succ_le_succ hk⟩

theorem Gives.existence (h : Gives .unary ts text k) :
    Gives .unary (spokenToken .existsWord "exists" :: ts) ("exists" ++ " " ++ text) (k + 1) := by
  obtain ⟨e, n, hd, rfl, hk⟩ := h.prefixed (c := .existsWord) (w := "exists") rfl
  exact ⟨_, n, hd, rfl, hk⟩

theorem Gives.negation (h : Gives .unary ts text k) :
    Gives .unary (spokenToken .notWord "not" :: ts) ("not" ++ " " ++ text) (k + 1) := by
  obtain ⟨e, n, hd, rfl, hk⟩ := h.prefixed (c := .notWord) (w := "not") rfl
  exact ⟨_, n, hd, rfl, hk⟩

theorem Lifted.unary (h : Lifted .cast ts text k) : Gives .unary ts text k := by
  induction h with
  | base h => exact .loosen (r := .unary) h
  | existence _ ih => exact ih.existence
  | negation _ ih => exact ih.negation

theorem Lifted.cast (h : Lifted .property ts text k) : Lifted .cast ts text k := by
  induction h with
  | base h => exact .base (.loosen (r := .cast) h)
  | existence _ ih => exact .existence ih
  | negation _ ih => exact .negation ih

/-- A cast behind the operators belongs to what they stand in front of. -/
theorem Lifted.typed (h : Lifted .cast ts text k) {target : String} (hn : IsName target.toList) :
    Lifted .cast (ts ++ [spokenToken .asWord "as", ⟨.phrase, target.toList, 0⟩])
      (text ++ " as " ++ target) (k + 1) := by
  induction h with
  | base h =>
    obtain ⟨e, n, hd, rfl, hk⟩ := h
    have step : Derives (.more .cast e) [spokenToken .asWord "as", ⟨.phrase, target.toList, 0⟩]
        (.node (.cast e target)) 0 := by
      have := @Derives.typed e (spokenToken .asWord "as") ⟨.phrase, target.toList, 0⟩ [] _ 0 rfl rfl .done
      rwa [hn.phraseName, String.ofList_toList] at this
    obtain ⟨m, hm⟩ := hd.chain_append rfl nofun step
    exact .base ⟨_, m, hm, rfl, Nat.succ_le_succ hk⟩
  | existence _ ih =>
    have := ih.existence
    rwa [← String.append_assoc, ← String.append_assoc] at this
  | negation _ ih =>
    have := ih.negation
    rwa [← String.append_assoc, ← String.append_assoc] at this

end

/-- How the tokens of an expression are read in the place where it has been derived. Every operator
may have become two. -/
def Rereads : Rule → Expr → Prop
  | .property, e => Lifted .property e.tokens e.display (2 * e.height) ∧
    (¬ e.Prefixed → Gives .property e.tokens e.display (2 * e.height))
  | .cast, e => Lifted .cast e.tokens e.display (2 * e.height)
  | r, e => Gives r e.tokens e.display (2 * e.height)

theorem Rereads.loosen {r : Rule} {e : Expr} (h : Rereads r.tighter e) : Rereads r e := by
  cases r with
  | property =>
    have given : Gives .property e.tokens e.display (2 * e.height) := .loosen (r := .property) h
    exact ⟨.base given, fun _ => given⟩
  | cast => exact h.1.cast
  | unary => exact Lifted.unary h
  | primary => exact h
  | _ =>
    refine Gives.loosen ?_
    exact h

def Readable (s : Shape Expr) : Prop := s.Worded ∧ s.Sourced

theorem kind_of_infixOf? {r : Rule} {k : Kind} {o : InfixOperator} (h : r.infixOf? k = some o) :
    k = o.kind := by
  cases r <;> cases k <;> cases h <;> rfl

/-- Chains of operators and their parts are read by their rules alone. -/
theorem rereads_chain {r : Rule} {k : Kind} {o : InfixOperator} (h : r.infixOf? k = some o)
    (e : Expr) : (Rereads r e ↔ Gives r e.tokens e.display (2 * e.height)) ∧
      (Rereads r.tighter e ↔ Gives r.tighter e.tokens e.display (2 * e.height)) := by
  cases r <;> first | exact ⟨.rfl, .rfl⟩ | cases h

section

variable {xs ys : List Token} {x y name : String} {k l : Nat}

theorem max_height_le {e f : Expr} (he : e.height ≤ k) (hf : f.height ≤ l) :
    max e.height f.height + 1 ≤ max k l + 1 := by
  omega

theorem Gives.operator {r : Rule} {kind : Kind} {o : InfixOperator}
    (ho : r.infixOf? kind = some o) (hx : Gives r xs x k) (hy : Gives r.tighter ys y l) :
    Gives r (xs ++ spokenToken o.kind o.spelling :: ys) (x ++ " " ++ o.spelling ++ " " ++ y)
      (max k l + 1) := by
  obtain ⟨e, n, hd, rfl, hk⟩ := hx
  obtain ⟨f, m, hf, rfl, hl⟩ := hy
  have chained : r.repeats ∧ r ≠ .property := by
    cases r <;> first | cases ho | exact ⟨rfl, nofun⟩
  have step : Derives (.more r e) (spokenToken o.kind o.spelling :: (ys ++ [])) (.node (.binary o e f))
      _ := .operator (kind_of_infixOf? ho ▸ ho) hf .done
  rw [List.append_nil] at step
  obtain ⟨i, hi⟩ := hd.chain_append chained.1 chained.2 step
  exact ⟨_, i, hi, rfl, max_height_le hk hl⟩

theorem Gives.filtered (hx : Gives .selection xs x k) (hy : Gives .primary ys y l) :
    Gives .selection (xs ++ spokenToken .whoseWord "whose" :: ys) (x ++ " whose " ++ y)
      (max k l + 1) := by
  obtain ⟨e, n, hd, rfl, hk⟩ := hx
  obtain ⟨f, m, hf, rfl, hl⟩ := hy
  have step : Derives (.more .selection e) (spokenToken .whoseWord "whose" :: (ys ++ []))
      (.node (.whose e f)) _ := .filtered rfl hf .done
  rw [List.append_nil] at step
  obtain ⟨i, hi⟩ := hd.chain_append rfl nofun step
  exact ⟨_, i, hi, rfl, max_height_le hk hl⟩

theorem Gives.sourced (hx : Gives .selection xs x k) (hy : Gives .property ys y l) :
    Gives .property (xs ++ spokenToken .ofWord "of" :: ys) (x ++ " of " ++ y) (max k l + 1) := by
  obtain ⟨e, n, hd, rfl, hk⟩ := hx
  obtain ⟨f, m, hf, rfl, hl⟩ := hy
  exact ⟨_, _, .sourced (o := spokenToken .ofWord "of") rfl hd hf, rfl,
    max_height_le hk hl⟩

theorem gives_leaf {t : Token} {s : Shape Expr} (h : leaf? t = some s) :
    Gives .primary (Expr.node s).tokens (Expr.node s).display 1 := by
  unfold leaf? at h
  split at h <;> cases h
  · refine ⟨_, _, .leaf (t := ⟨.string, '"' :: ((unquoted t.text).toList ++ ['"']), 0⟩) rfl, ?_, le_rfl⟩
    simp [unquoted]
  · refine ⟨_, _, .leaf (t := ⟨.numeral, (String.ofList t.text).toList, 0⟩) rfl, ?_, le_rfl⟩
    simp
  · exact ⟨_, _, .leaf (t := spokenToken .itWord "it") rfl, rfl, le_rfl⟩
  · exact ⟨_, _, .leaf (t := ⟨.question, ['?'], 0⟩) rfl, rfl, le_rfl⟩

theorem Gives.phrase (hn : IsName name.toList) :
    Gives .reference [⟨.phrase, name.toList, 0⟩] name 1 := by
  refine ⟨_, _, .phrase (p := ⟨.phrase, name.toList, 0⟩) rfl, ?_, le_rfl⟩
  simp [Expr.display, hn.phraseName]

theorem Gives.applied (hn : IsName name.toList) (hx : Gives .primary xs x k) :
    Gives .reference (⟨.phrase, name.toList, 0⟩ :: xs) (name ++ " " ++ x) (k + 1) := by
  obtain ⟨e, n, hd, rfl, hk⟩ := hx
  refine ⟨_, _, .applied (p := ⟨.phrase, name.toList, 0⟩) rfl hd, ?_, Nat.succ_le_succ hk⟩
  simp [Expr.display, hn.phraseName]

end

theorem displayAll_congr (separator : String) {es fs : List Expr}
    (h : fs.map Expr.display = es.map Expr.display) :
    Expr.displayAll separator fs = Expr.displayAll separator es := by
  induction es generalizing fs with
  | nil => simp_all
  | cons e es ih =>
    match fs, h with
    | f :: fs, h =>
      obtain ⟨head, rest⟩ := List.cons_eq_cons.1 h
      match es, fs, rest with
      | [], [], _ => exact head
      | e' :: es, f' :: fs, rest => simp only [Expr.displayAll, head, ih rest]

theorem tokensAll_cons (separator : Token) (e : Expr) (es : List Expr) :
    Expr.tokensAll separator (e :: es) = e.tokens ++ es.flatMap fun f => separator :: f.tokens := by
  induction es generalizing e with
  | nil => simp [Expr.tokensAll]
  | cons f es ih => rw [Expr.tokensAll, ih, List.flatMap_cons, List.cons_append]; simp

theorem gives_items {r : Rule} {separator : Token} (hs : r.separator? = some separator.kind)
    {es : List Expr} {k : Nat} (h : ∀ e ∈ es, Gives r.tighter e.tokens e.display k) :
    ∃ fs, fs.map Expr.display = es.map Expr.display ∧ (∀ f ∈ fs, f.height ≤ k) ∧ ∀ done, ∃ n,
      Derives (.items r done) (es.flatMap fun e => separator :: e.tokens) (r.joined (done ++ fs)) n := by
  induction es with
  | nil => exact ⟨[], rfl, by simp, fun done => ⟨0, by simpa using .noItem⟩⟩
  | cons e es ih =>
    obtain ⟨⟨f, n, hd, he, hk⟩, rest⟩ := List.forall_mem_cons.1 h
    obtain ⟨fs, same, low, hfs⟩ := ih rest
    refine ⟨f :: fs, by simp [he, same], List.forall_mem_cons.2 ⟨hk, low⟩, fun done => ?_⟩
    obtain ⟨m, hm⟩ := hfs (done ++ [f])
    exact ⟨_, by simpa using Derives.item hs hd hm⟩

theorem height_listed_le {r : Rule} {es : List Expr} {k : Nat} (h : ∀ e ∈ es, e.height ≤ k) :
    (Expr.node (r.listed es)).height ≤ k + 1 := by
  have below : (es.map Expr.height).foldl max 0 ≤ k :=
    Expr.foldl_max_le (by simpa using h)
  rw [Expr.height_node, Rule.children_listed]
  omega

/-- A list is read item by item. -/
theorem gives_list {r : Rule} (hr : r.separator?.isSome) {x y : Expr} {es : List Expr} {k : Nat}
    (h : ∀ e ∈ x :: y :: es, Gives r.tighter e.tokens e.display k) :
    Gives r (Expr.node (r.listed (x :: y :: es))).tokens
      (Expr.node (r.listed (x :: y :: es))).display (k + 1) := by
  obtain ⟨separator, hs, tokens⟩ : ∃ separator : Token, r.separator? = some separator.kind ∧
      (Expr.node (r.listed (x :: y :: es))).tokens = Expr.tokensAll separator (x :: y :: es) := by
    cases r with
    | collection => exact ⟨⟨.semicolon, [';'], 0⟩, rfl, rfl⟩
    | tuple => exact ⟨⟨.comma, [','], 0⟩, rfl, rfl⟩
    | _ => cases hr
  obtain ⟨⟨f, n, hd, he, hk⟩, rest⟩ := List.forall_mem_cons.1 h
  obtain ⟨fs, same, low, hfs⟩ := gives_items hs rest
  obtain ⟨m, hm⟩ := hfs [f]
  have two : 2 ≤ ([f] ++ fs).length := by
    have := congrArg List.length same
    simp at this ⊢
    omega
  rw [Rule.joined_of_two two] at hm
  have whole := Derives.list hr hd hm
  rw [← tokensAll_cons, ← tokens] at whole
  have all : ([f] ++ fs).map Expr.display = (x :: y :: es).map Expr.display := by simp [he, same]
  refine ⟨_, _, whole, ?_, height_listed_le (List.forall_mem_cons.2 ⟨hk, low⟩)⟩
  cases r with
  | collection | tuple => exact displayAll_congr _ all
  | _ => cases hr

/-- Lists and their items are read by their rules alone. -/
theorem rereads_list {r : Rule} (hr : r.separator?.isSome) (e : Expr) :
    (Rereads r e ↔ Gives r e.tokens e.display (2 * e.height)) ∧
      (Rereads r.tighter e ↔ Gives r.tighter e.tokens e.display (2 * e.height)) := by
  cases r <;> first | exact ⟨.rfl, .rfl⟩ | cases hr

theorem Rereads.accessed {x y : Expr} (h : Gives .property
    (Expr.node (.property x y)).tokens (Expr.node (.property x y)).display
    (max (2 * x.height) (2 * y.height) + 1)) : Rereads .property (.node (.property x y)) := by
  have given := h.mono (l := 2 * (max x.height y.height + 1)) (by omega)
  exact ⟨.base given, fun _ => given⟩

/-- What a part of a derivation is read as, given what the expression has been built from. -/
def Part.Reread (e : Expr) : Part → Prop
  | .rule r => e.Everywhere Readable → Rereads r e
  | .more r left => e.Everywhere Readable →
    left.Everywhere Readable ∧ (Rereads r left → Rereads r e)
  | .items r done => ∃ more, e = r.joined (done ++ more) ∧
    ∀ x ∈ more, x.Everywhere Readable → Rereads r.tighter x

theorem Derives.reread {p : Part} {ts : List Token} {e : Expr} {n : Nat} (h : Derives p ts e n) :
    p.Reread e := by
  induction h with
  | @conditional i t e' cs as bs c a b l m n hi ht he _ _ _ ic ia ib =>
    intro good
    obtain ⟨c', l', hc, ec, kc⟩ := ic (good.part (by simp [Shape.children]))
    obtain ⟨a', m', ha, ea, ka⟩ := ia (good.part (by simp [Shape.children]))
    obtain ⟨b', n', hb, eb, kb⟩ := ib (good.part (by simp [Shape.children]))
    refine ⟨_, _, .conditional (i := spokenToken .ifWord "if") (t := spokenToken .thenWord "then")
      (e := spokenToken .elseWord "else") rfl rfl rfl hc ha hb, by simp [Expr.display, ec, ea, eb], ?_⟩
    simp only [Expr.height, Expr.heightBelow]
    omega
  | pass _ _ ih => exact fun good => (ih good).loosen
  | @list r _ _ x _ _ _ hr _ _ ix im =>
    intro good
    obtain ⟨more, rfl, hm⟩ := im
    cases more with
    | nil => exact (ix good).loosen
    | cons y more =>
      have part : ∀ z ∈ x :: y :: more, z.Everywhere Readable ∧
          z.height < (Expr.node (r.listed (x :: y :: more))).height := fun z hz =>
        have child : z ∈ (r.listed (x :: y :: more)).children := by rwa [Rule.children_listed]
        ⟨good.part child, Expr.height_lt_of_mem_children child⟩
      obtain ⟨hx, rest⟩ := List.forall_mem_cons.1 part
      rw [(rereads_list hr _).1]
      have given : ∀ z ∈ x :: y :: more, Gives r.tighter z.tokens z.display
          (2 * ((Expr.node (r.listed (x :: y :: more))).height - 1)) :=
        List.forall_mem_cons.2 ⟨((rereads_list hr x).2.1 (ix hx.1)).mono (by omega), fun z hz =>
          have low := (rest z hz).2
          ((rereads_list hr z).2.1 (hm z hz (rest z hz).1)).mono (by omega)⟩
      have pos := Expr.height_pos (.node (r.listed (x :: y :: more)))
      exact (gives_list hr given).mono (l := 2 * (Expr.node (r.listed (x :: y :: more))).height) (by omega)
  | noItem => exact ⟨[], by simp, by simp⟩
  | item _ _ _ ix im =>
    obtain ⟨more, he, hm⟩ := im
    exact ⟨_ :: more, by simpa using he, List.forall_mem_cons.2 ⟨ix, hm⟩⟩
  | @compared o _ _ _ _ _ _ _ _ _ ix iy =>
    intro good
    have relation : IsRelation (String.ofList (spokenForm o.text)) := good.shape.1
    obtain ⟨x, n, hx, ex, kx⟩ := ix (good.part (by simp [Shape.children]))
    obtain ⟨y, m, hy, ey, ky⟩ := iy (good.part (by simp [Shape.children]))
    refine ⟨_, _, .compared (o := spokenToken .relation (String.ofList (spokenForm o.text))) rfl hx hy,
      ?_, ?_⟩
    · rw [Expr.display, Expr.display, ex, ey, spokenToken, relation.spokenForm]
    · simp only [Expr.height, Expr.heightBelow]
      omega
  | chain _ _ _ ix im =>
    intro good
    obtain ⟨left, step⟩ := im good
    exact step (ix left).loosen
  | done => exact fun good => ⟨good, id⟩
  | operator ho _ _ ix im =>
    intro good
    obtain ⟨whole, step⟩ := im good
    refine ⟨whole.part (by simp [Shape.children]), fun left => step ?_⟩
    rw [(rereads_chain ho _).1] at left ⊢
    have right := (rereads_chain ho _).2.1 (ix (whole.part (by simp [Shape.children])))
    refine (left.operator ho right).mono ?_
    simp only [Expr.height, Expr.heightBelow]
    omega
  | @prefixed t o xs x n _ _ ih =>
    intro good
    have part : Gives .unary x.tokens x.display (2 * x.height) :=
      ih (good.part (by simp [Shape.children]))
    have room : 2 * x.height + 1 ≤ 2 * (Expr.node (.unary o x)).height := by
      simp only [Expr.height, Expr.heightBelow]
      omega
    cases o with
    | existence => exact part.existence.mono room
    | absence =>
      have := part.existence.negation
      rwa [← String.append_assoc, ← String.append_assoc] at this
    | negation => exact part.negation.mono room
    | minus =>
      obtain ⟨e, n, hd, he, hk⟩ := part.prefixed (c := .minus) (w := "-") rfl
      exact ⟨_, n, hd, congrArg ("-" ++ ·) he, hk.trans room⟩
  | @typed left _ p _ _ _ _ _ _ ih =>
    intro good
    obtain ⟨whole, step⟩ := ih good
    refine ⟨whole.part (by simp [Shape.children]), fun left => step ?_⟩
    refine (Lifted.typed left whole.shape.1).mono ?_
    simp only [Expr.height, Expr.heightBelow]
    omega
  | sourced _ _ _ ix iy =>
    intro good
    have accessor := ix (good.part (by simp [Shape.children]))
    have source := iy (good.part (by simp [Shape.children]))
    exact .accessed (Gives.sourced accessor (source.2 good.shape.2))
  | its _ _ _ ix im =>
    intro good
    obtain ⟨whole, step⟩ := im good
    have accessor := ix (whole.part (by simp [Shape.children]))
    have it : Gives .primary (Expr.tokens (.node .it)) "it" 1 :=
      gives_leaf (t := spokenToken .itWord "it") rfl
    have source : Gives .property (Expr.tokens (.node .it)) "it" 1 :=
      .loosen (r := .property) (.loosen (r := .selection) (.loosen (r := .reference) it))
    exact step (.accessed (Gives.sourced accessor (source.mono (by decide))))
  | arrow _ _ _ ix im =>
    intro good
    obtain ⟨whole, step⟩ := im good
    have accessor := ix (whole.part (by simp [Shape.children]))
    exact ⟨whole.part (by simp [Shape.children]), fun left =>
      step (.accessed (Gives.sourced accessor (left.2 whole.shape.2)))⟩
  | @arrowExists left w t o ts e m _ ho _ ih =>
    intro good
    obtain ⟨whole, step⟩ := ih good
    refine ⟨whole.part (by simp [Shape.children]), fun left => step ⟨?_, fun no => (no trivial).elim⟩⟩
    cases o with
    | existence =>
      refine left.1.existence.mono ?_
      simp only [Expr.height, Expr.heightBelow]
      omega
    | absence =>
      have := left.1.existence.negation
      rwa [← String.append_assoc, ← String.append_assoc] at this
    | negation | minus => obtain h | h := existenceOf?_eq_some ho <;> cases h
  | filtered _ _ _ ix im =>
    intro good
    obtain ⟨whole, step⟩ := im good
    have filter := ix (whole.part (by simp [Shape.children]))
    refine ⟨whole.part (by simp [Shape.children]), fun left => step ?_⟩
    refine (Gives.filtered left filter).mono ?_
    simp only [Expr.height, Expr.heightBelow]
    omega
  | phrase => exact fun good => (Gives.phrase good.shape.1.1).mono (by rw [Expr.height]; omega)
  | applied _ _ ih =>
    intro good
    refine (Gives.applied good.shape.1.1 (ih (good.part (by simp [Shape.children])))).mono ?_
    simp only [Expr.height, Expr.heightBelow]
    omega
  | parens _ _ _ ih =>
    intro good
    obtain ⟨x, n, hx, ex, kx⟩ := ih (good.part (by simp [Shape.children]))
    refine ⟨_, _, .parens (o := ⟨.leftParen, ['('], 0⟩) (c := ⟨.rightParen, [')'], 0⟩) rfl rfl hx,
      by rw [Expr.display, Expr.display, ex], ?_⟩
    simp only [Expr.height, Expr.heightBelow]
    omega
  | leaf hs => exact fun _ => (gives_leaf hs).mono (by rw [Expr.height]; omega)

end Grammar

end InventoryQuery
