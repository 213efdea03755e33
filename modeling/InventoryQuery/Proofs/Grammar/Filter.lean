import InventoryQuery.Proofs.Grammar.Balance
import InventoryQuery.Proofs.Tree.Frame

/-! A sentence that ends with a filter in parentheses. However the filter comes to stand at the end, it
filters one node, what is in the parentheses is a sentence by itself, and any other sentence can take
its place without a change to the nodes around it. -/

namespace InventoryQuery.Grammar

/-- What may follow in a rule does not begin with a parenthesis. -/
theorem Derives.ahead_ne_leftParen {p : Part} {ts : List Token} {e : Expr} {n : Nat}
    (h : Derives p ts e n) (hp : ∀ r, p ≠ .rule r) : ahead ts ≠ .leftParen := by
  cases h with
  | noItem | done => simp
  | item ht =>
    rw [ahead_cons]
    intro same
    rw [same] at ht
    exact absurd (isParen_separator? ht) nofun
  | operator ho =>
    rw [ahead_cons]
    intro same
    rw [same] at ho
    exact absurd (isParen_infixOf? ho) nofun
  | typed hk | arrow hk | arrowExists hk | filtered hk => simp [hk]
  | _ => exact absurd rfl (hp _)

structure FilterTokens where
  word : Token
  opening : Token
  closing : Token
  word_kind : word.kind = .whoseWord
  opening_kind : opening.kind = .leftParen
  closing_kind : closing.kind = .rightParen

namespace FilterTokens

variable (f : FilterTokens)

def around (ps : List Token) : List Token := f.word :: f.opening :: (ps ++ [f.closing])

variable {f} {ps ys ts : List Token} (xs : List Token)

/-- The filter is in the last piece that is read, or that piece is all of it but the word. -/
theorem cut (h : xs ++ ys = ts ++ f.around ps) (inner : Inward ps) (balanced : Balanced ys) :
    ys = [] ∨ (∃ us, ys = us ++ f.around ps ∧ ts = xs ++ us) ∨
      ys = f.opening :: (ps ++ [f.closing]) ∧ xs = ts ++ [f.word] := by
  rcases List.append_eq_append_iff.1 h with ⟨us, rfl, rfl⟩ | ⟨us, rfl, tail⟩
  · exact .inr (.inl ⟨us, rfl, rfl⟩)
  cases us with
  | nil => exact .inr (.inl ⟨[], tail.symm, by simp⟩)
  | cons w us =>
    obtain ⟨rfl, rest⟩ := List.cons_eq_cons.1 tail
    cases us with
    | nil => exact .inr (.inr ⟨rest.symm, rfl⟩)
    | cons o us =>
      obtain ⟨rfl, inside⟩ := List.cons_eq_cons.1 rest
      rcases ys.eq_nil_or_concat with rfl | ⟨zs, c, rfl⟩
      · exact .inl rfl
      -- what is in front of the last parenthesis would open one more than it closes
      rw [List.concat_eq_append] at inside balanced
      rw [List.append_eq, ← List.append_assoc] at inside
      obtain ⟨rfl, last⟩ := List.append_inj' inside rfl
      cases last
      have more := inner zs (List.suffix_append us zs)
      simp [Balanced, f.closing_kind] at balanced
      omega

theorem cut_rule {t : Token} {r : Rule} {x : Expr} {n : Nat} (h : xs ++ t :: ys = ts ++ f.around ps)
    (inner : Inward ps) (hy : Derives (.rule r) ys x n) (ht : t.kind ≠ .whoseWord) :
    ∃ us, ys = us ++ f.around ps ∧ ts = xs ++ t :: us := by
  rw [List.append_cons] at h
  rcases cut _ h inner hy.balanced with rfl | ⟨us, rfl, rfl⟩ | ⟨-, front⟩
  · obtain ⟨_, _, same, -⟩ := exists_cons_of_opening (hy.opens r rfl)
    cases same
  · exact ⟨us, rfl, (List.append_cons ..).symm⟩
  · obtain ⟨-, last⟩ := List.append_inj' front rfl
    cases last
    exact absurd f.word_kind ht

theorem cut_more {p : Part} {e : Expr} {n : Nat} (h : xs ++ ys = ts ++ f.around ps)
    (inner : Inward ps) (hy : Derives p ys e n) (hp : ∀ r, p ≠ .rule r) :
    ys = [] ∧ xs = ts ++ f.around ps ∨ ∃ us, ys = us ++ f.around ps ∧ ts = xs ++ us := by
  rcases cut xs h inner hy.balanced with rfl | found | ⟨rfl, -⟩
  · exact .inl ⟨rfl, by simpa using h⟩
  · exact .inr found
  · exact absurd f.opening_kind (hy.ahead_ne_leftParen hp)

/-- Behind a token and a rule, the filter is in what follows them, or in the rule if nothing does. -/
theorem cut_step {xs : List Token} {t : Token} {r : Rule} {x e : Expr} {n m : Nat} {p : Part}
    (h : t :: (xs ++ ys) = ts ++ f.around ps) (inner : Inward ps) (hx : Derives (.rule r) xs x n)
    (ht : t.kind ≠ .whoseWord) (hy : Derives p ys e m) (hp : ∀ r, p ≠ .rule r) :
    (∃ us, ys = [] ∧ xs = us ++ f.around ps ∧ ts = t :: us) ∨
      ∃ us, ys = us ++ f.around ps ∧ ts = t :: (xs ++ us) := by
  rcases cut_more (t :: xs) h inner hy hp with ⟨rfl, front⟩ | found
  · obtain ⟨us, rfl, rfl⟩ := cut_rule [] front inner hx ht
    exact .inl ⟨us, rfl, rfl, rfl⟩
  · exact .inr found

/-- A sentence in parentheses does not end with the filter, which its last parenthesis would cut. -/
theorem ne_parens {xs : List Token} {o c : Token} {x : Expr} {n : Nat} (ho : o.kind = .leftParen)
    (hx : Derives (.rule .expression) xs x n) (even : Balanced ps) :
    o :: (xs ++ [c]) ≠ ts ++ f.around ps := by
  intro same
  have last : ts ++ f.around ps = (ts ++ f.word :: f.opening :: ps) ++ [f.closing] := by
    simp [around]
  rw [last, ← List.cons_append] at same
  obtain ⟨front, -⟩ := List.append_inj' same rfl
  cases ts with
  | nil =>
    obtain ⟨rfl, -⟩ := List.cons_eq_cons.1 front
    exact absurd ho (by simp [f.word_kind])
  | cons t ts =>
    obtain ⟨-, rfl⟩ := List.cons_eq_cons.1 front
    have more := hx.inward (f.opening :: ps) ((List.suffix_cons _ _).trans (List.suffix_append _ _))
    unfold Balanced at even
    simp [f.opening_kind] at more
    omega

theorem ne_short {xs : List Token} (h : xs.length < 3) : xs ≠ ts ++ f.around ps := by
  rintro rfl
  simp [around] at h
  omega

end FilterTokens

def filtering (source content : Expr) : Expr := .node (.whose source (.node (.parens content)))

/-- After `ts`, a filter ends the part; whatever is in the parentheses, what is filtered and the nodes
around it are the same. -/
def Ends (f : FilterTokens) (ps : List Token) (p : Part) (ts : List Token) (e : Expr) : Prop :=
  ∃ frames source content k, Derives (.rule .expression) ps content k ∧
    e = plug frames (filtering source content) ∧
    ∀ qs other l, Derives (.rule .expression) qs other l →
      ∃ m, Derives p (ts ++ f.around qs) (plug frames (filtering source other)) m

section ends

variable {f : FilterTokens} {ps ts us : List Token} {p q : Part} {e : Expr}

/-- A part that ends with a filter is the last one of another. -/
theorem Ends.within (h : Ends f ps p ts e) (outer : List Frame)
    (build : ∀ zs x n, Derives p (ts ++ zs) x n → ∃ m, Derives q (us ++ zs) (plug outer x) m) :
    Ends f ps q us (plug outer e) := by
  obtain ⟨frames, source, content, k, inside, rfl, other⟩ := h
  refine ⟨outer ++ frames, source, content, k, inside, (plug_append ..).symm, fun qs x l hx => ?_⟩
  obtain ⟨m, hd⟩ := other qs x l hx
  rw [plug_append]
  exact build _ _ m hd

/-- The list around its last item; there is none around the only one. -/
def Rule.listFrames (r : Rule) : List Expr → List Frame
  | [] => []
  | d :: ds => [⟨r.listed ((d :: ds).map some ++ [none]), by rw [Rule.children_listed]; simp⟩]

theorem plug_listFrames (r : Rule) (done : List Expr) (e : Expr) :
    plug (r.listFrames done) e = r.joined (done ++ [e]) := by
  cases done with
  | nil => rfl
  | cons d ds =>
    have filled : ((d :: ds).map some ++ [none]).map (fun part : Option Expr => part.getD e) =
        d :: ds ++ [e] := by
      rw [List.map_append, List.map_map]
      exact congrArg (· ++ [e]) (List.map_id (d :: ds))
    rw [Rule.joined_of_two (by simp), ← filled, ← Rule.map_listed]
    rfl

/-- Parentheses are read by one rule only. -/
theorem Derives.parens_inside {o c : Token} {x : Expr} {n : Nat}
    (h : Derives (.rule .primary) (o :: (ps ++ [c])) x n) :
    ∃ content k, Derives (.rule .expression) ps content k ∧ x = .node (.parens content) := by
  generalize hs : o :: (ps ++ [c]) = us at h
  cases h with
  | pass hr => cases hr
  | list hr => cases hr
  | chain hr => cases hr
  | parens _ _ hx =>
    obtain ⟨rfl, tail⟩ := List.cons_eq_cons.1 hs
    obtain ⟨rfl, -⟩ := List.append_inj' tail rfl
    exact ⟨_, _, hx, rfl⟩
  | leaf => simp at hs

theorem Derives.respelled {n : Nat} (h : Derives p ts e n) (same : ts = us) : Derives p us e n :=
  same ▸ h

theorem Ends.itself (left : Expr) {content : Expr} {k : Nat}
    (inside : Derives (.rule .expression) ps content k) :
    Ends f ps (.more .selection left) [] (filtering left content) := by
  refine ⟨[], left, content, k, inside, rfl, fun qs other l h => ?_⟩
  have filter := Derives.parens f.opening_kind f.closing_kind h
  exact ⟨_, (Derives.filtered f.word_kind filter .done).respelled (by simp [FilterTokens.around])⟩

/-- A sentence with a filter in parentheses at its end. -/
theorem Derives.ends {content : Expr} {k : Nat} (inside : Derives (.rule .expression) ps content k)
    {n : Nat} (h : Derives p us e n) : ∀ ts, us = ts ++ f.around ps → Ends f ps p ts e := by
  have inner := inside.inward
  -- the filter is in the last part that is read, and where that is a repetition and nothing is
  -- repeated, in the part before
  induction h with
  | conditional hi ht he hc ha hb _ _ ih =>
    intro ts same
    obtain ⟨us, rfl, rfl⟩ :=
      f.cut_rule (_ :: (_ ++ _ :: _)) (by simpa using same) inner hb (by simp [he])
    exact (ih us rfl).within [⟨.conditional (some _) (some _) none, rfl⟩] fun zs x n h =>
      ⟨_, (Derives.conditional hi ht he hc ha h).respelled (by simp)⟩
  | pass hr _ ih =>
    intro ts same
    exact (ih ts same).within [] fun zs x n h => ⟨n, .pass hr h⟩
  | list hr hx hd ihx ihd =>
    intro ts same
    rcases f.cut_more _ same inner hd nofun with ⟨rfl, front⟩ | ⟨us, rfl, rfl⟩
    · cases hd
      exact (ihx ts front).within [] fun zs x n h =>
        ⟨_, (Derives.list hr h .noItem).respelled (List.append_nil _)⟩
    · exact (ihd us rfl).within [] fun zs x n h => ⟨_, (Derives.list hr hx h).respelled (by simp)⟩
  | noItem | done =>
    intro ts same
    exact absurd same (f.ne_short (by simp))
  | @item r done t xs ts' x e n m ht hx hd ihx ihd =>
    intro ts same
    have word : t.kind ≠ .whoseWord := fun kind => by
      rw [kind] at ht
      cases r <;> cases ht
    rcases f.cut_step same inner hx word hd nofun with ⟨us, rfl, rfl, rfl⟩ | ⟨us, rfl, rfl⟩
    · cases hd
      rw [← plug_listFrames]
      refine (ihx us rfl).within (r.listFrames done) fun zs x n h => ⟨max (n + 1) 0, ?_⟩
      rw [plug_listFrames]
      exact (Derives.item ht h .noItem).respelled (by simp)
    · exact (ihd us rfl).within [] fun zs x n h =>
        ⟨_, (Derives.item ht hx h).respelled (by simp)⟩
  | compared ho hx hy _ ih =>
    intro ts same
    obtain ⟨us, rfl, rfl⟩ := f.cut_rule _ same inner hy (by simp [ho])
    exact (ih us rfl).within [⟨.binary _ (some _) none, rfl⟩] fun zs y n h =>
      ⟨_, (Derives.compared ho hx h).respelled (by simp)⟩
  | chain hr hx hd ihx ihd =>
    intro ts same
    rcases f.cut_more _ same inner hd nofun with ⟨rfl, front⟩ | ⟨us, rfl, rfl⟩
    · cases hd
      exact (ihx ts front).within [] fun zs x n h =>
        ⟨_, (Derives.chain hr h .done).respelled (List.append_nil _)⟩
    · exact (ihd us rfl).within [] fun zs x n h => ⟨_, (Derives.chain hr hx h).respelled (by simp)⟩
  | @operator r left t o xs ts' x e n m ho hx hd ihx ihd =>
    intro ts same
    have word : t.kind ≠ .whoseWord := fun kind => by
      rw [kind] at ho
      cases r <;> cases ho
    rcases f.cut_step same inner hx word hd nofun with ⟨us, rfl, rfl, rfl⟩ | ⟨us, rfl, rfl⟩
    · cases hd
      exact (ihx us rfl).within [⟨.binary o (some left) none, rfl⟩] fun zs x n h =>
        ⟨_, (Derives.operator ho h .done).respelled (by simp)⟩
    · exact (ihd us rfl).within [] fun zs x n h =>
        ⟨_, (Derives.operator ho hx h).respelled (by simp)⟩
  | prefixed ho hx ih =>
    intro ts same
    obtain ⟨us, rfl, rfl⟩ := f.cut_rule [] same inner hx fun kind => by
      rw [kind] at ho
      cases ho
    exact (ih us rfl).within [⟨.unary _ none, rfl⟩] fun zs x n h =>
      ⟨_, (Derives.prefixed ho h).respelled (by simp)⟩
  | @typed left a p ts' e m ha hp hd ih =>
    intro ts same
    rcases f.cut_more [a, p] same inner hd nofun with ⟨-, front⟩ | ⟨us, rfl, rfl⟩
    · exact absurd front (f.ne_short (by simp))
    · exact (ih us rfl).within [] fun zs x n h => ⟨_, (Derives.typed ha hp h).respelled (by simp)⟩
  | sourced ho hx hy _ ih =>
    intro ts same
    obtain ⟨us, rfl, rfl⟩ := f.cut_rule _ same inner hy (by simp [ho])
    exact (ih us rfl).within [⟨.property (some _) none, rfl⟩] fun zs y n h =>
      ⟨_, (Derives.sourced ho hx h).respelled (by simp)⟩
  | @its i xs ts' x e n m hi hx hd ihx ihd =>
    intro ts same
    rcases f.cut_step same inner hx (by simp [hi]) hd nofun with ⟨us, rfl, rfl, rfl⟩ | ⟨us, rfl, rfl⟩
    · cases hd
      exact (ihx us rfl).within [⟨.property none (some (.node .it)), rfl⟩] fun zs x n h =>
        ⟨_, (Derives.its hi h .done).respelled (by simp)⟩
    · exact (ihd us rfl).within [] fun zs x n h => ⟨_, (Derives.its hi hx h).respelled (by simp)⟩
  | @arrow left w xs ts' x e n m hw hx hd ihx ihd =>
    intro ts same
    rcases f.cut_step same inner hx (by simp [hw]) hd nofun with ⟨us, rfl, rfl, rfl⟩ | ⟨us, rfl, rfl⟩
    · cases hd
      exact (ihx us rfl).within [⟨.property none (some left), rfl⟩] fun zs x n h =>
        ⟨_, (Derives.arrow hw h .done).respelled (by simp)⟩
    · exact (ihd us rfl).within [] fun zs x n h => ⟨_, (Derives.arrow hw hx h).respelled (by simp)⟩
  | @arrowExists left w t o ts' e m hw ho hd ih =>
    intro ts same
    rcases f.cut_more [w, t] same inner hd nofun with ⟨-, front⟩ | ⟨us, rfl, rfl⟩
    · exact absurd front (f.ne_short (by simp))
    · exact (ih us rfl).within [] fun zs x n h =>
        ⟨_, (Derives.arrowExists hw ho h).respelled (by simp)⟩
  | @filtered left w xs ts' x e n m hw hx hd ihx ihd =>
    intro ts same
    rcases f.cut_more (w :: xs) same inner hd nofun with ⟨rfl, front⟩ | ⟨us, rfl, rfl⟩
    · cases hd
      rcases f.cut [w] front inner hx.balanced with rfl | ⟨us, rfl, rfl⟩ | ⟨rfl, first⟩
      · obtain ⟨_, _, same, -⟩ := exists_cons_of_opening (hx.opens _ rfl)
        cases same
      · exact (ihx us rfl).within [⟨.whose (some left) none, rfl⟩] fun zs x n h =>
          ⟨_, (Derives.filtered hw h .done).respelled (by simp)⟩
      · -- the filter itself
        obtain ⟨rfl, -⟩ := List.append_inj' (show [] ++ [w] = ts ++ [f.word] from first) rfl
        obtain ⟨content, k, inside, rfl⟩ := hx.parens_inside
        exact .itself left inside
    · exact (ihd us rfl).within [] fun zs x n h =>
        ⟨_, (Derives.filtered hw hx h).respelled (by simp)⟩
  | phrase | leaf =>
    intro ts same
    exact absurd same (f.ne_short (by simp))
  | applied hp hx ih =>
    intro ts same
    obtain ⟨us, rfl, rfl⟩ := f.cut_rule [] same inner hx (by simp [hp])
    exact (ih us rfl).within [⟨.phrase _ (some none), rfl⟩] fun zs x n h =>
      ⟨_, (Derives.applied hp h).respelled (by simp)⟩
  | parens ho _ hx =>
    intro ts same
    exact absurd same (f.ne_parens ho hx inside.balanced)

end ends

end InventoryQuery.Grammar
