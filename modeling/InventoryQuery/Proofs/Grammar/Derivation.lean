import InventoryQuery.Grammar.Rules

/-! The grammar as a relation between a part of the grammar, the tokens it is written with, the
expression they stand for and the nesting of the derivation. A repetition is derived from the left:
`more r l` is what may still follow in the rule `r` once `l` has been read, so that every chain
groups to the left and `a of b` to the right.

Tokens are told apart by their kind; their text only goes into the expression. Two facts on
derivations are all that a reader has to look at: the kind of token that a rule starts with, and the
kinds that no longer belong to it. -/

namespace InventoryQuery.Grammar

namespace Rule

/-- The place of a rule in the order from the tightest binding to the loosest. -/
def looseness : Rule → Nat
  | primary => 0
  | reference => 1
  | selection => 2
  | property => 3
  | cast => 4
  | unary => 5
  | product => 6
  | sum => 7
  | relation => 8
  | conjunction => 9
  | disjunction => 10
  | tuple => 11
  | collection => 12
  | expression => 13

def tighter : Rule → Rule
  | expression => collection
  | collection => tuple
  | tuple => disjunction
  | disjunction => conjunction
  | conjunction => relation
  | relation => sum
  | sum => product
  | product => unary
  | unary => cast
  | cast => property
  | property => selection
  | selection => reference
  | reference => primary
  | primary => primary

/-- A single part of the next tighter rule is enough, and nothing may follow it. -/
def passes : Rule → Bool
  | expression | relation | unary | reference => true
  | _ => false

/-- A part of the next tighter rule comes first, and then a repetition. -/
def repeats : Rule → Bool
  | disjunction | conjunction | sum | product | cast | property | selection => true
  | _ => false

def infixOf? : Rule → Kind → Option InfixOperator
  | product, .star => some .times
  | product, .slash => some .divide
  | product, .modWord => some .modulo
  | product, .ampersand => some .concat
  | sum, .plus => some .plus
  | sum, .minus => some .minus
  | conjunction, .andWord => some .conjunction
  | disjunction, .orWord => some .disjunction
  | _, _ => none

/-- What stands between the items of a list. -/
def separator? : Rule → Option Kind
  | tuple => some .comma
  | collection => some .semicolon
  | _ => none

def listed {α : Type} : Rule → List α → Shape α
  | tuple => .tuple
  | _ => .collection

def joined (r : Rule) : List Expr → Expr
  | [e] => e
  | es => .node (r.listed es)

end Rule

/-- The operators that stand in front of what they apply to. -/
def unaryOf? : Kind → Option PrefixOperator
  | .existsWord => some .existence
  | .notExistsWord => some .absence
  | .notWord => some .negation
  | .minus => some .minus
  | _ => none

/-- The two operators that may stand in the place of a property after an arrow. -/
def existenceOf? : Kind → Option PrefixOperator
  | .existsWord => some .existence
  | .notExistsWord => some .absence
  | _ => none

def leaf? (t : Token) : Option (Shape Expr) :=
  match t.kind with
  | .string => some (.string (unquoted t.text))
  | .numeral => some (.number (String.ofList t.text))
  | .itWord => some .it
  | .question => some .marker
  | _ => none

section tables

variable (nested : Context → Rule → Parser NodeId)

theorem prefixOf?_eq : prefixOf? = unaryOf? := by
  funext k
  cases k <;> rfl

/-- The parser has the operators of the grammar, and reads each chain of them in one way. -/
theorem apply_chain {r : Rule} (hr : r ∈ [Rule.product, .sum, .conjunction, .disjunction]) :
    apply nested r = chain nested r.infixOf? (apply nested r.tighter) r.tighter := by
  have products : productOf? = Rule.product.infixOf? := by funext k; cases k <;> rfl
  have sums : sumOf? = Rule.sum.infixOf? := by funext k; cases k <;> rfl
  have conjunctions : conjunctionOf? = Rule.conjunction.infixOf? := by funext k; cases k <;> rfl
  have disjunctions : disjunctionOf? = Rule.disjunction.infixOf? := by funext k; cases k <;> rfl
  simp only [List.mem_cons, List.not_mem_nil, or_false] at hr
  rcases hr with rfl | rfl | rfl | rfl
  · rw [← products]; rfl
  · rw [← sums]; rfl
  · rw [← conjunctions]; rfl
  · rw [← disjunctions]; rfl

end tables

inductive Part where
  | rule (rule : Rule)
  | more (rule : Rule) (left : Expr)
  | items (rule : Rule) (done : List Expr)

/-- The last argument is the nesting: how many parts are entered one inside another, where those
count that a context is opened for. The first part of a chain or a list, and the parts of the rules
that only pass on, are read in the context that is open already. -/
inductive Derives : Part → List Token → Expr → Nat → Prop
  -- expression = if expression then expression else expression | collection
  | conditional {i t e : Token} {cs as bs : List Token} {c a b : Expr} {l m n : Nat} :
    i.kind = .ifWord → t.kind = .thenWord → e.kind = .elseWord →
    Derives (.rule .expression) cs c l → Derives (.rule .expression) as a m →
    Derives (.rule .expression) bs b n →
    Derives (.rule .expression) (i :: (cs ++ t :: (as ++ e :: bs))) (.node (.conditional c a b))
      (max (l + 1) (max (m + 1) (n + 1)))
  -- expression = collection, relation = sum, unary = cast, reference = primary
  | pass {r : Rule} {ts : List Token} {e : Expr} {n : Nat} :
    r.passes → Derives (.rule r.tighter) ts e n → Derives (.rule r) ts e n
  -- collection = tuple (; tuple)*, tuple = disjunction (, disjunction)*
  | list {r : Rule} {xs ts : List Token} {x e : Expr} {n m : Nat} :
    r.separator?.isSome → Derives (.rule r.tighter) xs x n → Derives (.items r [x]) ts e m →
    Derives (.rule r) (xs ++ ts) e (max n m)
  | noItem {r : Rule} {done : List Expr} : Derives (.items r done) [] (r.joined done) 0
  | item {r : Rule} {done : List Expr} {t : Token} {xs ts : List Token} {x e : Expr} {n m : Nat} :
    r.separator? = some t.kind → Derives (.rule r.tighter) xs x n →
    Derives (.items r (done ++ [x])) ts e m →
    Derives (.items r done) (t :: (xs ++ ts)) e (max (n + 1) m)
  -- relation = sum RELATION sum
  | compared {o : Token} {xs ys : List Token} {x y : Expr} {n m : Nat} :
    o.kind = .relation → Derives (.rule .sum) xs x n → Derives (.rule .sum) ys y m →
    Derives (.rule .relation) (xs ++ o :: ys)
      (.node (.binary (.relation (String.ofList (spokenForm o.text))) x y)) (max n (m + 1))
  -- disjunction, conjunction, sum, product, cast, property, selection: the tighter rule, repeated
  | chain {r : Rule} {xs ts : List Token} {x e : Expr} {n m : Nat} :
    r.repeats → Derives (.rule r.tighter) xs x n → Derives (.more r x) ts e m →
    Derives (.rule r) (xs ++ ts) e (max n m)
  | done {r : Rule} {left : Expr} : Derives (.more r left) [] left 0
  -- (or conjunction)*, (and relation)*, ((+ | -) product)*, ((* | / | mod | &) unary)*
  | operator {r : Rule} {left : Expr} {t : Token} {o : InfixOperator} {xs ts : List Token}
    {x e : Expr} {n m : Nat} :
    r.infixOf? t.kind = some o → Derives (.rule r.tighter) xs x n →
    Derives (.more r (.node (.binary o left x))) ts e m →
    Derives (.more r left) (t :: (xs ++ ts)) e (max (n + 1) m)
  -- unary = (exists | not exists | not | -) unary
  | prefixed {t : Token} {o : PrefixOperator} {xs : List Token} {x : Expr} {n : Nat} :
    unaryOf? t.kind = some o → Derives (.rule .unary) xs x n →
    Derives (.rule .unary) (t :: xs) (.node (.unary o x)) (n + 1)
  -- (as PHRASE)*
  | typed {left : Expr} {a p : Token} {ts : List Token} {e : Expr} {m : Nat} :
    a.kind = .asWord → p.kind = .phrase →
    Derives (.more .cast (.node (.cast left (phraseName p.text)))) ts e m →
    Derives (.more .cast left) (a :: p :: ts) e m
  -- property = selection of property
  | sourced {o : Token} {xs ys : List Token} {x y : Expr} {n m : Nat} :
    o.kind = .ofWord → Derives (.rule .selection) xs x n → Derives (.rule .property) ys y m →
    Derives (.rule .property) (xs ++ o :: ys) (.node (.property x y)) (max n (m + 1))
  -- property = its selection (-> (selection | exists | not exists))*
  | its {i : Token} {xs ts : List Token} {x e : Expr} {n m : Nat} :
    i.kind = .itsWord → Derives (.rule .selection) xs x n →
    Derives (.more .property (.node (.property x (.node .it)))) ts e m →
    Derives (.rule .property) (i :: (xs ++ ts)) e (max (n + 1) m)
  -- (-> (selection | exists | not exists))*
  | arrow {left : Expr} {w : Token} {xs ts : List Token} {x e : Expr} {n m : Nat} :
    w.kind = .arrow → Derives (.rule .selection) xs x n →
    Derives (.more .property (.node (.property x left))) ts e m →
    Derives (.more .property left) (w :: (xs ++ ts)) e (max (n + 1) m)
  | arrowExists {left : Expr} {w t : Token} {o : PrefixOperator} {ts : List Token} {e : Expr}
    {m : Nat} :
    w.kind = .arrow → existenceOf? t.kind = some o →
    Derives (.more .property (.node (.unary o left))) ts e m →
    Derives (.more .property left) (w :: t :: ts) e m
  -- (whose primary)*
  | filtered {left : Expr} {w : Token} {xs ts : List Token} {x e : Expr} {n m : Nat} :
    w.kind = .whoseWord → Derives (.rule .primary) xs x n →
    Derives (.more .selection (.node (.whose left x))) ts e m →
    Derives (.more .selection left) (w :: (xs ++ ts)) e (max (n + 1) m)
  -- reference = PHRASE primary?
  | phrase {p : Token} :
    p.kind = .phrase → Derives (.rule .reference) [p] (.node (.phrase (phraseName p.text) none)) 0
  | applied {p : Token} {xs : List Token} {x : Expr} {n : Nat} :
    p.kind = .phrase → Derives (.rule .primary) xs x n →
    Derives (.rule .reference) (p :: xs) (.node (.phrase (phraseName p.text) (some x))) (n + 1)
  -- primary = ( expression ) | STRING | NUMERAL | it | ?
  | parens {o c : Token} {xs : List Token} {x : Expr} {n : Nat} :
    o.kind = .leftParen → c.kind = .rightParen → Derives (.rule .expression) xs x n →
    Derives (.rule .primary) (o :: (xs ++ [c])) (.node (.parens x)) (n + 1)
  | leaf {t : Token} {s : Shape Expr} : leaf? t = some s → Derives (.rule .primary) [t] (.node s) 0

/-- The tightest rule that a token of this kind can start; beyond all rules if there is none. -/
def opening : Kind → Nat
  | .leftParen | .string | .numeral | .itWord | .question => 0
  | .phrase => 1
  | .itsWord => 3
  | .existsWord | .notExistsWord | .notWord | .minus => 5
  | .ifWord => 13
  | _ => 14

/-- The loosest rule that is over when a token of this kind comes next. -/
def closing : Kind → Nat
  | .whoseWord => 1
  | .ofWord | .arrow => 2
  | .asWord => 3
  | .star | .slash | .modWord | .ampersand => 5
  | .plus | .minus => 6
  | .relation => 7
  | .andWord => 8
  | .orWord => 9
  | .comma => 10
  | .semicolon => 11
  | .thenWord | .elseWord | .rightParen | .endOfInput => 13
  | _ => 0

def ahead (ts : List Token) : Kind := (ts.head?.map (·.kind)).getD .endOfInput

@[simp] theorem ahead_nil : ahead [] = .endOfInput := rfl

@[simp] theorem ahead_cons (t : Token) (ts : List Token) : ahead (t :: ts) = t.kind := rfl

theorem here_kind (s : State) : s.here.kind = ahead s.rest := by
  unfold State.here ahead
  cases s.rest <;> rfl

/-- The one token for the end of the input tells where a text is cut. -/
theorem append_eof_inj {xs c rest : List Token} {eof : Token} (h : xs ++ [eof] = c ++ rest)
    (heof : eof.kind = .endOfInput) (hx : ∀ t ∈ xs, t.kind ≠ .endOfInput)
    (hc : ∀ t ∈ c, t.kind ≠ .endOfInput) (hr : ahead rest = .endOfInput) :
    c = xs ∧ rest = [eof] := by
  rcases List.append_eq_append_iff.1 h with ⟨a, rfl, ha⟩ | ⟨b, rfl, rfl⟩
  · rcases List.singleton_eq_append_iff.1 ha with ⟨rfl, rfl⟩ | ⟨rfl, rfl⟩
    · exact ⟨List.append_nil _, rfl⟩
    · exact absurd heof (hc eof (by simp))
  · cases b with
    | nil => exact ⟨(List.append_nil _).symm, rfl⟩
    | cons y b => exact absurd hr (hx y (by simp))

theorem looseness_le (r : Rule) : r.looseness ≤ 13 := by cases r <;> decide

theorem looseness_tighter (r : Rule) : r.tighter.looseness = r.looseness - 1 := by cases r <;> rfl

theorem looseness_inj {r q : Rule} (h : r.looseness = q.looseness) : r = q := by
  revert h
  cases r <;> cases q <;> simp [Rule.looseness]

/-- From a rule to a looser one, step by step. -/
theorem Rule.loosening {motive : Rule → Prop} {q r : Rule} (h : q.looseness ≤ r.looseness)
    (base : motive q) (step : ∀ r, q.looseness < r.looseness → motive r.tighter → motive r) :
    motive r := by
  induction hk : r.looseness - q.looseness generalizing r with
  | zero => exact looseness_inj (r := r) (q := q) (by omega) ▸ base
  | succ k ih =>
    have tighter := looseness_tighter r
    exact step r (by omega) (ih (by omega) (by omega))

/-- From the tightest rule to the loosest, each one by the next tighter. -/
theorem Rule.level_induction {motive : Rule → Prop} (primary : motive .primary)
    (looser : ∀ r, r ≠ .primary → motive r.tighter → motive r) (r : Rule) : motive r :=
  Rule.loosening (q := .primary) (Nat.zero_le _) primary fun r above =>
    looser r (by rintro rfl; exact absurd above (Nat.lt_irrefl _))

theorem exists_cons_of_opening {ts : List Token} {r : Rule} (h : opening (ahead ts) ≤ r.looseness) :
    ∃ t us, ts = t :: us ∧ opening t.kind ≤ r.looseness := by
  cases ts with
  | nil =>
    have := looseness_le r
    simp only [ahead_nil, opening] at h
    omega
  | cons t us => exact ⟨t, us, rfl, h⟩

theorem ahead_append_of_opening {xs : List Token} {r : Rule} (h : opening (ahead xs) ≤ r.looseness)
    (ts : List Token) : ahead (xs ++ ts) = ahead xs := by
  obtain ⟨t, us, rfl, -⟩ := exists_cons_of_opening h
  rfl

theorem opening_unaryOf? {k : Kind} {o : PrefixOperator} (h : unaryOf? k = some o) :
    opening k = 5 := by
  cases k <;> first | rfl | cases h

theorem opening_leaf? {t : Token} {s : Shape Expr} (h : leaf? t = some s) : opening t.kind = 0 := by
  unfold leaf? at h
  split at h <;> simp_all [opening]

theorem closing_infixOf? {r : Rule} {k : Kind} {o : InfixOperator} (h : r.infixOf? k = some o) :
    closing k + 1 = r.looseness := by
  cases r <;> cases k <;> first | rfl | cases h

theorem closing_separator? {r : Rule} {k : Kind} (h : r.separator? = some k) :
    closing k + 1 = r.looseness := by
  cases r <;> cases h <;> rfl

/-- What only looser rules begin with does not begin a part of this one. -/
theorem ne_of_opening {r : Rule} {k l : Kind} (h : opening k ≤ r.looseness)
    (hl : r.looseness < opening l) : k ≠ l := by
  intro same
  rw [same] at h
  omega

/-- What does not end the rule does not follow a part of it. -/
theorem ne_of_closing {r : Rule} {k l : Kind} (h : r.looseness ≤ closing k)
    (hl : closing l < r.looseness) : k ≠ l := by
  intro same
  rw [same] at h
  omega

/-- Every rule reads something, and begins with a token that can start it. -/
theorem Derives.opens {p : Part} {ts : List Token} {e : Expr} {n : Nat} (h : Derives p ts e n) :
    ∀ r, p = .rule r → opening (ahead ts) ≤ r.looseness := by
  induction h with
  | conditional hi =>
    intro _ same
    cases same
    simp [hi, opening, Rule.looseness]
  | @pass r _ _ _ _ _ ih =>
    intro _ same
    cases same
    have := ih _ rfl
    rw [looseness_tighter] at this
    omega
  | @list r _ _ _ _ _ _ _ _ _ ih | @chain r _ _ _ _ _ _ _ _ _ ih =>
    intro _ same
    cases same
    have := ih _ rfl
    rw [ahead_append_of_opening this]
    rw [looseness_tighter] at this
    omega
  | compared _ _ _ ih | sourced _ _ _ ih =>
    intro _ same
    cases same
    have := ih _ rfl
    rw [ahead_append_of_opening this]
    exact Nat.le_trans this (by decide)
  | prefixed ho =>
    intro _ same
    cases same
    simp [opening_unaryOf? ho, Rule.looseness]
  | its hi =>
    intro _ same
    cases same
    simp [hi, opening, Rule.looseness]
  | phrase hp | applied hp =>
    intro _ same
    cases same
    simp [hp, opening, Rule.looseness]
  | parens ho =>
    intro _ same
    cases same
    simp [ho, opening, Rule.looseness]
  | leaf hs =>
    intro _ same
    cases same
    simp [opening_leaf? hs, Rule.looseness]
  | _ => nofun

/-- What repeats in a rule begins with a token that ends all tighter rules. -/
theorem Derives.closes_more {r : Rule} {left : Expr} {ts : List Token} {e : Expr} {n : Nat}
    (h : Derives (.more r left) ts e n) {rest : List Token}
    (hr : r.looseness ≤ closing (ahead rest)) :
    r.tighter.looseness ≤ closing (ahead (ts ++ rest)) := by
  rw [looseness_tighter]
  cases h with
  | done => exact Nat.le_trans (Nat.sub_le _ _) hr
  | operator ho => have := closing_infixOf? ho; simp only [List.cons_append, ahead_cons]; omega
  | typed hk | arrow hk | arrowExists hk | filtered hk => simp [hk, closing, Rule.looseness]

theorem Derives.closes_items {r : Rule} {done : List Expr} {ts : List Token} {e : Expr} {n : Nat}
    (h : Derives (.items r done) ts e n) {rest : List Token}
    (hr : r.looseness ≤ closing (ahead rest)) :
    r.tighter.looseness ≤ closing (ahead (ts ++ rest)) := by
  rw [looseness_tighter]
  cases h with
  | noItem => exact Nat.le_trans (Nat.sub_le _ _) hr
  | item ht => have := closing_separator? ht; simp only [List.cons_append, ahead_cons]; omega

/-- Neither the end of the input nor what is no token can be read. -/
def readable : Kind → Bool
  | .endOfInput | .invalid => false
  | _ => true

theorem ne_endOfInput_of_readable {k : Kind} (h : readable k) : k ≠ .endOfInput := by
  intro same
  rw [same] at h
  cases h

theorem readable_infixOf? {r : Rule} {k : Kind} {o : InfixOperator} (h : r.infixOf? k = some o) :
    readable k := by
  cases r <;> cases k <;> first | rfl | cases h

theorem readable_separator? {r : Rule} {k : Kind} (h : r.separator? = some k) : readable k := by
  cases r <;> cases h <;> rfl

theorem readable_unaryOf? {k : Kind} {o : PrefixOperator} (h : unaryOf? k = some o) :
    readable k := by
  cases k <;> first | rfl | cases h

theorem existenceOf?_eq_some {k : Kind} {o : PrefixOperator} (h : existenceOf? k = some o) :
    o = .existence ∨ o = .absence := by
  unfold existenceOf? at h
  split at h <;> cases h
  · exact .inl rfl
  · exact .inr rfl

theorem readable_existenceOf? {k : Kind} {o : PrefixOperator} (h : existenceOf? k = some o) :
    readable k := by
  cases k <;> first | rfl | cases h

theorem readable_leaf? {t : Token} {s : Shape Expr} (h : leaf? t = some s) : readable t.kind := by
  unfold leaf? at h
  split at h <;> simp_all [readable]

theorem Derives.readable {p : Part} {ts : List Token} {e : Expr} {n : Nat} (h : Derives p ts e n) :
    ∀ t ∈ ts, readable t.kind := by
  induction h with
  | item ht => have := readable_separator? ht; grind
  | operator ho => have := readable_infixOf? ho; grind
  | prefixed ho => have := readable_unaryOf? ho; grind
  | arrowExists hw ht => have := readable_existenceOf? ht; grind [Grammar.readable]
  | leaf hs => have := readable_leaf? hs; grind
  | _ => grind [Grammar.readable]

/-- A part of the next tighter rule is a part of the rule. -/
theorem Derives.loosen {r : Rule} {ts : List Token} {e : Expr} {n : Nat}
    (h : Derives (.rule r.tighter) ts e n) : Derives (.rule r) ts e n := by
  have one {p : Part} (h : Derives p (ts ++ []) e (max n 0)) : Derives p ts e n := by
    rwa [List.append_nil, Nat.max_zero] at h
  cases r with
  | primary => exact h
  | expression | relation | unary | reference => exact .pass rfl h
  | tuple | collection => exact one (.list rfl h .noItem)
  | disjunction | conjunction | sum | product | cast | property | selection =>
    exact one (.chain rfl h .done)

theorem Derives.loosened {q r : Rule} {ts : List Token} {e : Expr} {n : Nat}
    (h : Derives (.rule q) ts e n) (hr : q.looseness ≤ r.looseness) : Derives (.rule r) ts e n :=
  Rule.loosening (motive := fun r => Derives (.rule r) ts e n) hr h fun _ _ => Derives.loosen

def sample (k : Kind) : Token := ⟨k, [], 0⟩

/-- The shortest sentence of every rule is a numeral. -/
theorem derives_numeral (r : Rule) :
    Derives (.rule r) [sample .numeral] (.node (.number "")) 0 := by
  induction r using Rule.level_induction with
  | primary => exact .leaf rfl
  | looser r _ ih => exact ih.loosen

end InventoryQuery.Grammar
