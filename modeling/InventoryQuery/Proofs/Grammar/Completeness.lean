import InventoryQuery.Proofs.Grammar.Building
import InventoryQuery.Proofs.Grammar.Derivation
import InventoryQuery.Proofs.Grammar.Locality

/-! Whatever can be derived is read as it is derived, as long as what comes next does not belong to
it: the whole part and no more, with the expression of the derivation on top of the stack, and
within the contexts that are free exactly if the derivation does not nest deeper than that. -/

namespace InventoryQuery.Grammar

variable {α β : Type}

/-- From `s` the parser reads up to `rest`, unless the nesting `n` is more than there is room
for. -/
def Meets (p : Parser α) (s : State) (n : Nat) (rest : List Token) (post : α → State → Prop) :
    Prop :=
  match p s with
  | .ok a t => n ≤ s.contexts.room ∧ t.rest = rest ∧ t.contexts = s.contexts ∧ post a t
  | .error e _ => s.contexts.room < n ∧ e.code = .nestedTooDeeply

namespace Meets

variable {s : State} {n m : Nat} {rest : List Token} {post : β → State → Prop}

theorem imp {p : Parser β} {post' : β → State → Prop} (h : Meets p s n rest post)
    (hp : ∀ b t, post b t → post' b t) : Meets p s n rest post' := by
  unfold Meets at *
  cases hr : p s with
  | ok b t => rw [hr] at h; exact ⟨h.1, h.2.1, h.2.2.1, hp b t h.2.2.2⟩
  | error e t => rw [hr] at h; exact h

theorem pure {b : β} (hs : s.rest = rest) (h : post b s) : Meets (Pure.pure b) s 0 rest post :=
  ⟨Nat.zero_le _, hs, rfl, h⟩

theorem bind {p : Parser α} {q : α → Parser β} {middle : List Token} {post' : α → State → Prop}
    (hp : Meets p s n middle post')
    (hq : ∀ a t, t.rest = middle → t.contexts = s.contexts → post' a t →
        Meets (q a) t m rest post) : Meets (p >>= q) s (max n m) rest post := by
  unfold Meets at hp ⊢
  rw [bind_apply]
  cases h : p s with
  | error e t =>
    rw [h] at hp
    exact ⟨Nat.lt_of_lt_of_le hp.1 (Nat.le_max_left n m), hp.2⟩
  | ok a t =>
    rw [h] at hp
    obtain ⟨hn, hm, hc, ha⟩ := hp
    have hq := hq a t hm hc ha
    unfold Meets at hq
    rw [hc] at hq
    dsimp only
    cases hr : q a t with
    | error e u =>
      rw [hr] at hq
      exact ⟨Nat.lt_of_lt_of_le hq.1 (Nat.le_max_right n m), hq.2⟩
    | ok b u =>
      rw [hr] at hq
      exact ⟨Nat.max_le.2 ⟨hn, hq.1⟩, hq.2⟩

/-- What nests no deeper than the part before it adds nothing. -/
theorem bind_last {p : Parser α} {q : α → Parser β} {middle : List Token} {post' : α → State → Prop}
    (hp : Meets p s n middle post')
    (hq : ∀ a t, t.rest = middle → t.contexts = s.contexts → post' a t →
        Meets (q a) t 0 rest post) : Meets (p >>= q) s n rest post := by
  have := bind hp hq
  rwa [Nat.max_zero] at this

theorem map {p : Parser α} {f : α → β} (h : Meets p s n rest fun a t => post (f a) t) :
    Meets (f <$> p) s n rest post :=
  bind_last (q := fun a => Pure.pure (f a)) h fun _ _ ht _ ha => pure ht ha

theorem peek {q : Token → Parser β} (h : Meets (q s.here) s n rest post) :
    Meets (peek >>= q) s n rest post := h

/-- Reading a token changes neither the contexts nor what has been built. -/
theorem advance {q : Unit → Parser β} {t : Token} {ts : List Token} (hs : s.rest = t :: ts)
    (hk : t.kind ≠ .endOfInput)
    (hq : ∀ u : State, u.rest = ts → u.contexts = s.contexts →
        (∀ stack, Holds s stack → Holds u stack) → Meets (q ()) u n rest post) :
    Meets (advance >>= q) s n rest post := by
  have ha := advanced_cons hs hk
  have hc : s.advanced.contexts = s.contexts := by rw [ha]
  have := hq s.advanced (by rw [ha]) hc fun _ => Holds.advanced
  unfold Meets at this ⊢
  rwa [hc] at this

theorem accept {k : Kind} {q : Bool → Parser β} {t : Token} {ts : List Token}
    (hs : s.rest = t :: ts) (ht : t.kind = k) (hk : k ≠ .endOfInput)
    (hq : ∀ u : State, u.rest = ts → u.contexts = s.contexts →
        (∀ stack, Holds s stack → Holds u stack) → Meets (q true) u n rest post) :
    Meets (accept k >>= q) s n rest post := by
  have := advance (q := fun _ => q true) hs (ht ▸ hk) hq
  unfold Meets at this ⊢
  rwa [accept_bind_of_eq (by rw [here_cons hs, ht])]

theorem accept_ne {k : Kind} {q : Bool → Parser β} (hs : ahead s.rest ≠ k)
    (hq : Meets (q false) s n rest post) : Meets (Grammar.accept k >>= q) s n rest post := by
  unfold Meets at hq ⊢
  rwa [accept_bind_of_ne (by rwa [here_kind])]

theorem enter {below parts : Stack} {start : Nat} (shape : Shape (NodeId × Expr))
    (h : Holds s (below ++ parts)) (hp : shape.children.Perm parts) (hs : (shape.map (·.1)).Proper)
    (hr : s.rest = rest) :
    Meets (enter (shape.map (·.1)) start) s 0 rest
      fun a t => Holds t (below ++ [(a, .node (shape.map (·.2)))]) :=
  ⟨Nat.zero_le _, hr, rfl, h.entered hp hs start⟩

theorem enter_bind {below parts : Stack} {start : Nat} {q : NodeId → Parser β}
    (shape : Shape (NodeId × Expr)) (h : Holds s (below ++ parts)) (hp : shape.children.Perm parts)
    (hs : (shape.map (·.1)).Proper)
    (hq : ∀ a t, t.rest = s.rest → t.contexts = s.contexts →
        Holds t (below ++ [(a, .node (shape.map (·.2)))]) → Meets (q a) t n rest post) :
    Meets (Grammar.enter (shape.map (·.1)) start >>= q) s n rest post := by
  have := bind (p := Grammar.enter (shape.map (·.1)) start) (enter shape h hp hs rfl) hq
  rwa [Nat.zero_max] at this

/-- What a step leaves when it goes on. -/
theorem enter_some {below parts : Stack} {start : Nat} (shape : Shape (NodeId × Expr))
    (h : Holds s (below ++ parts)) (hp : shape.children.Perm parts) (hs : (shape.map (·.1)).Proper)
    (hr : s.rest = rest) :
    Meets (some <$> Grammar.enter (shape.map (·.1)) start) s 0 rest
      fun o t => ∃ a, o = some a ∧ Holds t (below ++ [(a, .node (shape.map (·.2)))]) :=
  map ((enter shape h hp hs hr).imp fun a _ ha => ⟨a, rfl, ha⟩)

theorem repeated_none {step : β → Parser (Option β)} (hp : Steady step) {a : β}
    (h : step a s = .ok none s) (hr : s.rest = rest) (ha : post a s) :
    Meets (repeated step a) s 0 rest post := by
  unfold Meets
  rw [hp.repeated_none h]
  exact ⟨Nat.zero_le _, hr, rfl, ha⟩

theorem repeated_some {step : β → Parser (Option β)} (hp : Steady step) {a : β}
    {middle : List Token} {post' : β → State → Prop}
    (h : Meets (step a) s n middle fun o t => ∃ b, o = some b ∧ post' b t)
    (hq : ∀ b t, t.rest = middle → t.contexts = s.contexts → post' b t →
        Meets (repeated step b) t m rest post) : Meets (repeated step a) s (max n m) rest post := by
  have unrolled : repeated step a s =
      (step a >>= fun o => o.elim (Pure.pure a) (repeated step)) s := by
    rw [bind_apply]
    cases h : step a s with
    | error e t => exact hp.repeated_error h
    | ok o t =>
      cases o with
      | none => exact hp.repeated_none h
      | some b => exact hp.repeated_some h
  have both : Meets (step a >>= fun o => o.elim (Pure.pure a) (repeated step)) s (max n m) rest
      post :=
    bind h fun o t hr hc hb => by
      obtain ⟨b, rfl, hb⟩ := hb
      exact hq b t hr hc hb
  unfold Meets at both ⊢
  rwa [unrolled]

end Meets

/-- The parser reads exactly `ts` where something follows that ends the rule, and leaves `e` on top
of the stack. -/
def Completed (room : Nat) (p : Parser NodeId) (r : Rule) (ts : List Token) (e : Expr) (n : Nat) :
    Prop :=
  ∀ s rest below, s.contexts.room = room → s.rest = ts ++ rest →
    r.looseness ≤ closing (ahead rest) → Holds s below →
    Meets p s n rest fun a t => Holds t (below ++ [(a, e)])

theorem push?_of_room {c : ContextStack} {k : Nat} (h : c.room = k + 1) (context : Context) :
    ∃ d, c.push? context = some d ∧ d.room = k ∧ d.pop = c := by
  have hl : c.entries.length ≤ maxNesting := by unfold ContextStack.room at h; omega
  refine ⟨_, dif_pos hl, ?_, rfl⟩
  unfold ContextStack.room at *
  rw [List.length_cons]
  omega

/-- A part in a context of its own nests one deeper than it does by itself. -/
theorem Meets.nestedIn {r : Rule} {room : Nat} {s : State} {n : Nat} {rest : List Token}
    {post : NodeId → State → Prop} (hroom : s.contexts.room = room)
    (h : ∀ k d, d.room = k → Meets (apply (Grammar.nestedIn k) r) { s with contexts := d } n rest
      fun a t => ∀ c, post a { t with contexts := c }) (context : Context) :
    Meets (Grammar.nestedIn room context r) s (n + 1) rest post := by
  unfold Meets
  cases room with
  | zero => exact ⟨by rw [hroom]; exact Nat.succ_pos n, rfl⟩
  | succ k =>
    obtain ⟨d, hd, hk, hpop⟩ := push?_of_room hroom context
    have := h k d hk
    unfold Meets at this
    rw [Grammar.nestedIn, within]
    simp only [hd, hroom]
    cases hp : apply (Grammar.nestedIn k) r { s with contexts := d } with
    | ok a t =>
      rw [hp] at this
      obtain ⟨hn, ht, hc, ha⟩ := this
      dsimp only at hn hc
      exact ⟨by rw [hk] at hn; omega, ht, by rw [hc, hpop], ha _⟩
    | error e t =>
      rw [hp] at this
      dsimp only at this
      exact ⟨by rw [hk] at this; omega, this.2⟩

theorem Completed.nestedIn {r : Rule} {ts : List Token} {e : Expr} {n : Nat}
    (h : ∀ room, Completed room (apply (nestedIn room) r) r ts e n) (room : Nat)
    (context : Context) : Completed room (nestedIn room context r) r ts e (n + 1) := by
  intro s rest below hroom hs hr hh
  refine .nestedIn hroom (fun k d hd => ?_) context
  refine (h k { s with contexts := d } rest below hd hs hr (hh.of_eq rfl rfl rfl)).imp ?_
  exact fun a t ha c => ha.of_eq rfl rfl rfl

theorem Derives.opens_here {r : Rule} {ts rest : List Token} {e : Expr} {n : Nat} {s : State}
    (h : Derives (.rule r) ts e n) (hs : s.rest = ts ++ rest) :
    opening s.here.kind ≤ r.looseness := by
  have starts := h.opens r rfl
  rwa [here_kind, hs, ahead_append_of_opening starts]

theorem Completed.operand {r : Rule} {ts : List Token} {e : Expr} {n : Nat}
    (hd : Derives (.rule r) ts e n)
    (h : ∀ room, Completed room (apply (Grammar.nestedIn room) r) r ts e n) (room : Nat) :
    Completed room (operand (Grammar.nestedIn room) r) r ts e (n + 1) := by
  intro s rest below hroom hs hr hh
  have hk : s.here.kind ≠ .endOfInput := ne_of_opening (hd.opens_here hs)
    (Nat.lt_of_le_of_lt (looseness_le r) (by decide))
  refine .peek ?_
  rw [if_neg hk]
  exact Completed.nestedIn h room .operand s rest below hroom hs hr hh

def stepOf (nested : Context → Rule → Parser NodeId) (r : Rule) (start : Nat) :
    NodeId → Parser (Option NodeId) :=
  match r with
  | .selection => whoseStep nested start
  | .property => arrowStep nested start
  | .cast => castStep start
  | r => chainStep nested r.infixOf? r.tighter start

/-- Every derivation is followed by the parser. What is being put together is on the stack while a
repetition goes on. -/
def Followed : Part → List Token → Expr → Nat → Prop
  | .rule r, ts, e, n => ∀ room, Completed room (apply (nestedIn room) r) r ts e n
  | .more r left, ts, e, n =>
    ∀ start id s rest below room, s.contexts.room = room → s.rest = ts ++ rest →
      r.looseness ≤ closing (ahead rest) → Holds s (below ++ [(id, left)]) →
      Meets (repeated (stepOf (nestedIn room) r start) id) s n rest
        fun a t => Holds t (below ++ [(a, e)])
  | .items r done, ts, e, n =>
    ∀ separator frame s rest below room, r.separator? = some separator → s.contexts.room = room →
      s.rest = ts ++ rest → r.looseness ≤ closing (ahead rest) →
      frame.map (·.2) = done → Holds s (below ++ frame) →
      Meets (repeated (itemStep (nestedIn room) separator r.tighter) (frame.map (·.1))) s n rest
        fun ids t => ∃ longer : Stack, ids = longer.map (·.1) ∧ e = r.joined (longer.map (·.2)) ∧
          frame.length ≤ longer.length ∧ (ts ≠ [] → frame.length < longer.length) ∧
          Holds t (below ++ longer)

theorem followed_conditional {i t e : Token} {cs as bs : List Token} {c a b : Expr} {l m n : Nat}
    (hi : i.kind = .ifWord) (ht : t.kind = .thenWord) (he : e.kind = .elseWord)
    (hc : Followed (.rule .expression) cs c l) (ha : Followed (.rule .expression) as a m)
    (hb : Followed (.rule .expression) bs b n) :
    Followed (.rule .expression) (i :: (cs ++ t :: (as ++ e :: bs))) (.node (.conditional c a b))
      (max (l + 1) (max (m + 1) (n + 1))) := by
  intro room s rest below hroom hs hr h
  refine .peek ?_
  rw [if_pos (by rw [here_cons hs, hi])]
  refine .advance hs (by simp [hi]) fun s₁ r₁ c₁ k₁ => ?_
  refine .bind (Completed.nestedIn hc room .condition s₁ (t :: (as ++ e :: (bs ++ rest))) below
    (by rw [c₁, hroom])
    (by simpa using r₁) (by simp [ht, closing, Rule.looseness]) (k₁ _ h)) fun c' s₂ r₂ c₂ h₂ => ?_
  refine .accept r₂ ht (by decide) fun s₃ r₃ c₃ k₃ => ?_
  refine .bind (Completed.nestedIn ha room .branch s₃ (e :: (bs ++ rest)) _
    (by rw [c₃, c₂, c₁, hroom])
    r₃ (by simp [he, closing, Rule.looseness]) (k₃ _ h₂)) fun a' s₄ r₄ c₄ h₄ => ?_
  refine .accept r₄ he (by decide) fun s₅ r₅ c₅ k₅ => ?_
  refine .bind_last (Completed.nestedIn hb room .branch s₅ rest _
    (by rw [c₅, c₄, c₃, c₂, c₁, hroom]) r₅ hr (k₅ _ h₄))
    fun b' s₆ r₆ c₆ h₆ => ?_
  have parts : Holds s₆ (below ++ [(c', c), (a', a), (b', b)]) := by simpa using h₆
  exact .enter (.conditional (c', c) (a', a) (b', b)) parts (.refl _) trivial r₆

theorem steady_stepOf (room : Nat) (r : Rule) (start : Nat) :
    Steady (stepOf (nestedIn room) r start) := by
  have ends : r.infixOf? .endOfInput = none := by cases r <;> rfl
  have operators := steady_chainStep (local_nestedIn room) ends r.tighter start
  cases r with
  | selection => exact steady_whoseStep (local_nestedIn room) start
  | property => exact steady_arrowStep (local_nestedIn room) start
  | cast => exact steady_castStep start
  | _ => exact operators

theorem stepOf_none {nested : Context → Rule → Parser NodeId} {r : Rule} {s : State}
    (hr : r.looseness ≤ closing s.here.kind) (start : Nat) (id : NodeId) :
    stepOf nested r start id s = .ok none s := by
  have operators : chainStep nested r.infixOf? r.tighter start id s = .ok none s := by
    rw [chainStep, peek_bind]
    cases ho : r.infixOf? s.here.kind with
    | none => rfl
    | some o =>
      have := closing_infixOf? ho
      omega
  cases r with
  | selection => exact (accept_bind_of_ne (ne_of_closing hr (by decide)) _).trans rfl
  | property => exact (accept_bind_of_ne (ne_of_closing hr (by decide)) _).trans rfl
  | cast => exact (accept_bind_of_ne (ne_of_closing hr (by decide)) _).trans rfl
  | _ => exact operators

theorem separator?_ne_endOfInput {r : Rule} {k : Kind} (h : r.separator? = some k) :
    k ≠ .endOfInput :=
  ne_endOfInput_of_readable (readable_separator? h)

theorem ahead_ne_separator {r : Rule} {k : Kind} (h : r.separator? = some k) {rest : List Token}
    (hr : r.looseness ≤ closing (ahead rest)) : ahead rest ≠ k := by
  have := closing_separator? h
  exact ne_of_closing hr (by omega)

/-- A rule gives what the next tighter rule gives, where no token that starts another form of the
rule comes first and none that continues the part comes after it. -/
theorem Meets.loosen {r : Rule} {room : Nat} {s : State} {n : Nat} {rest : List Token}
    {post : NodeId → State → Prop} (hk : opening s.here.kind ≤ r.tighter.looseness)
    (hr : r.looseness ≤ closing (ahead rest))
    (h : Meets (apply (Grammar.nestedIn room) r.tighter) s n rest post) :
    Meets (apply (Grammar.nestedIn room) r) s n rest post := by
  have ends (start : Nat) (a : NodeId) (t : State) (ht : t.rest = rest) (ha : post a t) :
      Meets (repeated (stepOf (Grammar.nestedIn room) r start) a) t 0 rest post :=
    .repeated_none (steady_stepOf room r start)
      (stepOf_none (by rwa [here_kind, ht]) start a) ht ha
  have single {separator : Kind} (hs : r.separator? = some separator)
      (make : List NodeId → Shape NodeId) : Meets (separated (Grammar.nestedIn room) separator make
        (apply (Grammar.nestedIn room) r.tighter) r.tighter) s n rest post := by
    refine .peek (.bind_last h fun a t ht _ ha => .peek ?_)
    rw [here_kind, ht, if_neg (ahead_ne_separator hs hr)]
    exact .pure ht ha
  cases r with
  | primary => exact h
  | expression =>
    refine .peek ?_
    rwa [if_neg (ne_of_opening hk (by decide))]
  | relation =>
    refine .peek (.bind_last h fun a t ht _ ha => .peek ?_)
    rw [here_kind, ht, if_neg (ne_of_closing hr (by decide))]
    exact .pure ht ha
  | unary =>
    refine .peek ?_
    rw [prefixOf?_eq]
    cases ho : unaryOf? s.here.kind with
    | none => exact h
    | some o =>
      rw [opening_unaryOf? ho] at hk
      exact absurd hk (by decide)
  | reference =>
    refine .peek ?_
    rwa [if_neg (ne_of_opening hk (by decide))]
  | property =>
    refine .peek (.accept_ne ?_ (.bind_last h fun a t ht _ ha => .accept_ne ?_ (ends _ a t ht ha)))
    · rw [← here_kind]
      exact ne_of_opening hk (by decide)
    · rw [ht]
      exact ne_of_closing hr (by decide)
  | tuple => exact single rfl _
  | collection => exact single rfl _
  | disjunction | conjunction | sum | product =>
    rw [apply_chain _ (by decide)]
    exact .peek (.bind_last h fun a t ht _ ha => ends _ a t ht ha)
  | cast | selection => exact .peek (.bind_last h fun a t ht _ ha => ends _ a t ht ha)

theorem Meets.loosened {q r : Rule} {room : Nat} {s : State} {n : Nat} {rest : List Token}
    {post : NodeId → State → Prop} (hq : q.looseness ≤ r.looseness)
    (hk : opening s.here.kind ≤ q.looseness) (hr : r.looseness ≤ closing (ahead rest))
    (h : Meets (apply (Grammar.nestedIn room) q) s n rest post) :
    Meets (apply (Grammar.nestedIn room) r) s n rest post := by
  refine Rule.loosening (motive := fun r => r.looseness ≤ closing (ahead rest) →
    Meets (apply (Grammar.nestedIn room) r) s n rest post) hq (fun _ => h) (fun r hr ih hc => ?_) hr
  have tighter := looseness_tighter r
  exact .loosen (by omega) hc (ih (by omega))

theorem followed_pass {r : Rule} {ts : List Token} {e : Expr} {n : Nat}
    (hd : Derives (.rule r.tighter) ts e n) (h : Followed (.rule r.tighter) ts e n) :
    Followed (.rule r) ts e n := by
  intro room s rest below hroom hs hr hh
  have part := h room s rest below hroom hs (by rw [looseness_tighter]; omega) hh
  exact .loosen (hd.opens_here hs) hr part

theorem followed_done {r : Rule} {left : Expr} : Followed (.more r left) [] left 0 := by
  intro start id s rest below room hroom hs hr h
  rw [List.nil_append] at hs
  exact .repeated_none (steady_stepOf room r start)
    (stepOf_none (by rwa [here_kind, hs]) start id) hs h

/-- One step and then the steps that follow it. -/
theorem followed_step {r : Rule} {left next : Expr} (xs : List Token) {ts : List Token} {e : Expr}
    {n m : Nat}
    (step : ∀ start id s rest below room, s.contexts.room = room → s.rest = xs ++ rest →
        r.tighter.looseness ≤ closing (ahead rest) → Holds s (below ++ [(id, left)]) →
        Meets (stepOf (nestedIn room) r start id) s n rest
          fun o t => ∃ a, o = some a ∧ Holds t (below ++ [(a, next)]))
    (hd : Derives (.more r next) ts e m) (h : Followed (.more r next) ts e m) :
    Followed (.more r left) (xs ++ ts) e (max n m) := by
  intro start id s rest below room hroom hs hr hh
  rw [List.append_assoc] at hs
  refine .repeated_some (steady_stepOf room r start)
    (step start id s (ts ++ rest) below room hroom hs (hd.closes_more hr) hh) fun a t ht hc ha => ?_
  exact h start a t rest below room (by rw [hc, hroom]) ht hr ha

theorem followed_operator {r : Rule} {left : Expr} {t : Token} {o : InfixOperator}
    {xs ts : List Token} {x e : Expr} {n m : Nat} (ho : r.infixOf? t.kind = some o)
    (hx : Derives (.rule r.tighter) xs x n) (ix : Followed (.rule r.tighter) xs x n)
    (hd : Derives (.more r (.node (.binary o left x))) ts e m)
    (ih : Followed (.more r (.node (.binary o left x))) ts e m) :
    Followed (.more r left) (t :: (xs ++ ts)) e (max (n + 1) m) := by
  refine followed_step (t :: xs) (fun start id s rest below room hroom hs hr h => ?_) hd ih
  have unfolded : stepOf (nestedIn room) r start id =
      chainStep (nestedIn room) r.infixOf? r.tighter start id := by
    cases r <;> first | rfl | cases ho
  rw [unfolded]
  refine .peek ?_
  rw [here_cons hs, ho]
  have hk : t.kind ≠ .endOfInput := ne_endOfInput_of_readable (readable_infixOf? ho)
  refine .advance hs hk fun s₁ r₁ c₁ k₁ => ?_
  have right := Completed.operand hx ix room s₁ rest _ (by rw [c₁, hroom]) r₁ hr (k₁ _ h)
  refine .bind_last right fun a u hu _ ha => ?_
  have parts : Holds u (below ++ [(id, left), (a, x)]) := by simpa using ha
  exact .enter_some (.binary o (id, left) (a, x)) parts (.refl _) trivial hu

theorem followed_filtered {left : Expr} {w : Token} {xs ts : List Token} {x e : Expr} {n m : Nat}
    (hw : w.kind = .whoseWord) (ix : Followed (.rule .primary) xs x n)
    (hd : Derives (.more .selection (.node (.whose left x))) ts e m)
    (ih : Followed (.more .selection (.node (.whose left x))) ts e m) :
    Followed (.more .selection left) (w :: (xs ++ ts)) e (max (n + 1) m) := by
  refine followed_step (w :: xs) (fun start id s rest below room hroom hs hr h => ?_) hd ih
  refine .accept hs hw (by decide) fun s₁ r₁ c₁ k₁ => ?_
  have filter := Completed.nestedIn ix room .whoseFilter s₁ rest _ (by rw [c₁, hroom]) r₁
    (Nat.zero_le _) (k₁ _ h)
  refine .bind_last filter fun a u hu _ ha => ?_
  have parts : Holds u (below ++ [(id, left), (a, x)]) := by simpa using ha
  exact .enter_some (.whose (id, left) (a, x)) parts (.refl _) trivial hu

/-- An arrow takes what is there as the source of the selection after it. -/
theorem Meets.arrowStep {left x : Expr} {w : Token} {xs rest : List Token} {n room start : Nat}
    {id : NodeId} {s : State} {below : Stack} (hw : w.kind = .arrow)
    (hx : Derives (.rule .selection) xs x n) (ix : Followed (.rule .selection) xs x n)
    (hroom : s.contexts.room = room) (hs : s.rest = w :: (xs ++ rest))
    (hr : Rule.selection.looseness ≤ closing (ahead rest)) (h : Holds s (below ++ [(id, left)])) :
    Meets (Grammar.arrowStep (Grammar.nestedIn room) start id) s (n + 1) rest
      fun o t => ∃ a, o = some a ∧ Holds t (below ++ [(a, .node (.property x left))]) := by
  refine .accept hs hw (by decide) fun s₁ r₁ c₁ k₁ => .peek ?_
  have starts := hx.opens_here r₁
  split
  · rename_i hk; exact absurd hk (ne_of_opening starts (by decide))
  · rename_i hk; exact absurd hk (ne_of_opening starts (by decide))
  · have accessor := Completed.nestedIn ix room .propertyChain s₁ rest _ (by rw [c₁, hroom]) r₁ hr
      (k₁ _ h)
    refine .bind_last accessor fun a u hu _ ha => ?_
    have parts : Holds u (below ++ [(id, left), (a, x)]) := by simpa using ha
    exact .enter_some (.property (a, x) (id, left)) parts (.swap _ _ _) trivial hu

theorem followed_arrow {left : Expr} {w : Token} {xs ts : List Token} {x e : Expr} {n m : Nat}
    (hw : w.kind = .arrow) (hx : Derives (.rule .selection) xs x n)
    (ix : Followed (.rule .selection) xs x n)
    (hd : Derives (.more .property (.node (.property x left))) ts e m)
    (ih : Followed (.more .property (.node (.property x left))) ts e m) :
    Followed (.more .property left) (w :: (xs ++ ts)) e (max (n + 1) m) :=
  followed_step (w :: xs)
    (fun _ _ _ _ _ _ hroom hs hr h => .arrowStep hw hx ix hroom hs hr h) hd ih

theorem Meets.arrowExists {left : Expr} {w t : Token} {o : PrefixOperator} {rest : List Token}
    {room start : Nat} {id : NodeId} {s : State} {below : Stack} (hw : w.kind = .arrow)
    (ht : existenceOf? t.kind = some o) (hs : s.rest = w :: t :: rest)
    (h : Holds s (below ++ [(id, left)])) :
    Meets (Grammar.arrowStep (Grammar.nestedIn room) start id) s 0 rest
      fun i u => ∃ a, i = some a ∧ Holds u (below ++ [(a, .node (.unary o left))]) := by
  refine .accept hs hw (by decide) fun s₁ r₁ c₁ k₁ => .peek ?_
  rw [here_cons r₁]
  split
  all_goals rename_i hk
  · cases (by rw [hk] at ht; exact ht : some PrefixOperator.existence = some o)
    refine .advance r₁ (by simp [hk]) fun s₂ r₂ c₂ k₂ => ?_
    exact .enter_some (.unary .existence (id, left)) (k₂ _ (k₁ _ h)) (.refl _) trivial r₂
  · cases (by rw [hk] at ht; exact ht : some PrefixOperator.absence = some o)
    refine .advance r₁ (by simp [hk]) fun s₂ r₂ c₂ k₂ => ?_
    exact .enter_some (.unary .absence (id, left)) (k₂ _ (k₁ _ h)) (.refl _) trivial r₂
  · unfold existenceOf? at ht
    split at ht <;> simp_all

theorem followed_arrowExists {left : Expr} {w t : Token} {o : PrefixOperator} {ts : List Token}
    {e : Expr} {m : Nat} (hw : w.kind = .arrow) (ht : existenceOf? t.kind = some o)
    (hd : Derives (.more .property (.node (.unary o left))) ts e m)
    (ih : Followed (.more .property (.node (.unary o left))) ts e m) :
    Followed (.more .property left) (w :: t :: ts) e m := by
  rw [← Nat.zero_max m]
  exact followed_step [w, t] (fun _ _ _ _ _ _ _ hs _ h => .arrowExists hw ht hs h) hd ih

theorem followed_typed {left : Expr} {a p : Token} {ts : List Token} {e : Expr} {m : Nat}
    (ha : a.kind = .asWord) (hp : p.kind = .phrase)
    (hd : Derives (.more .cast (.node (.cast left (phraseName p.text)))) ts e m)
    (ih : Followed (.more .cast (.node (.cast left (phraseName p.text)))) ts e m) :
    Followed (.more .cast left) (a :: p :: ts) e m := by
  rw [← Nat.zero_max m]
  refine followed_step [a, p] (fun start id s rest below room hroom hs hr h => ?_) hd ih
  refine .accept hs ha (by decide) fun s₁ r₁ c₁ k₁ => .peek ?_
  rw [here_cons r₁]
  split
  · refine .advance r₁ (by simp [hp]) fun s₂ r₂ c₂ k₂ => ?_
    exact .enter_some (.cast (id, left) (phraseName p.text)) (k₂ _ (k₁ _ h)) (.refl _) trivial r₂
  · rename_i hk; exact absurd hp hk

/-- A rule with a repetition reads a part of the next tighter rule; what comes after it is no reason
to do anything else first. -/
theorem followed_chain {r : Rule} {xs ts : List Token} {x e : Expr} {n m : Nat} (hr : r.repeats)
    (hx : Derives (.rule r.tighter) xs x n) (ix : Followed (.rule r.tighter) xs x n)
    (hd : Derives (.more r x) ts e m) (ih : Followed (.more r x) ts e m) :
    Followed (.rule r) (xs ++ ts) e (max n m) := by
  intro room s rest below hroom hs hc h
  rw [List.append_assoc] at hs
  have first := ix room s (ts ++ rest) below hroom hs (hd.closes_more hc) h
  have later (start : Nat) (a : NodeId) (t : State) (hrt : t.rest = ts ++ rest)
      (hct : t.contexts = s.contexts) (ha : Holds t (below ++ [(a, x)])) :=
    ih start a t rest below room (by rw [hct, hroom]) hrt hc ha
  cases r with
  | property =>
    have starts := hx.opens_here hs
    rw [here_kind] at starts
    refine .peek (.accept_ne (ne_of_opening starts (by decide))
      (.bind first fun a t hrt hct ha => .accept_ne ?_ ?_))
    · rw [hrt]
      cases hd with
      | done => exact ne_of_closing hc (by decide)
      | arrow hw | arrowExists hw => simp [hw]
      | operator ho => cases ho
    · exact later _ a t hrt hct ha
  | disjunction | conjunction | sum | product =>
    rw [apply_chain _ (by decide)]
    exact .peek (.bind first (later _))
  | cast | selection => exact .peek (.bind first (later _))
  | _ => cases hr

theorem Rule.map_listed {β : Type} (r : Rule) (f : α → β) (xs : List α) :
    (r.listed xs).map f = r.listed (xs.map f) := by
  cases r <;> rfl

theorem Rule.children_listed (r : Rule) (xs : List α) : (r.listed xs).children = xs := by
  cases r <;> rfl

theorem Rule.proper_listed (r : Rule) {xs : List α} (h : 2 ≤ xs.length) : (r.listed xs).Proper := by
  cases r <;> exact h

theorem Rule.joined_of_two {r : Rule} {es : List Expr} (h : 2 ≤ es.length) :
    r.joined es = .node (r.listed es) := by
  match es with
  | [] | [_] => exact absurd h (by simp)
  | _ :: _ :: _ => rfl

theorem steady_items {r : Rule} {separator : Kind} (h : r.separator? = some separator)
    (room : Nat) : Steady (itemStep (nestedIn room) separator r.tighter) :=
  steady_itemStep (local_nestedIn room) (separator?_ne_endOfInput h) r.tighter

theorem followed_noItem {r : Rule} {done : List Expr} :
    Followed (.items r done) [] (r.joined done) 0 := by
  intro separator frame s rest below room hsep hroom hs hr hf h
  rw [List.nil_append] at hs
  have declines : itemStep (nestedIn room) separator r.tighter (frame.map (·.1)) s = .ok none s :=
    (accept_bind_of_ne (by rw [here_kind, hs]; exact ahead_ne_separator hsep hr) _).trans rfl
  exact .repeated_none (steady_items hsep room) declines hs
    ⟨frame, rfl, by rw [hf], Nat.le_refl _, fun hts => absurd rfl hts, h⟩

theorem followed_item {r : Rule} {done : List Expr} {t : Token} {xs ts : List Token} {x e : Expr}
    {n m : Nat} (ht : r.separator? = some t.kind) (ix : Followed (.rule r.tighter) xs x n)
    (hd : Derives (.items r (done ++ [x])) ts e m) (ih : Followed (.items r (done ++ [x])) ts e m) :
    Followed (.items r done) (t :: (xs ++ ts)) e (max (n + 1) m) := by
  intro separator frame s rest below room hsep hroom hs hr hf h
  cases hsep.symm.trans ht
  rw [List.cons_append, List.append_assoc] at hs
  have step : Meets (itemStep (nestedIn room) t.kind r.tighter (frame.map (·.1))) s (n + 1)
      (ts ++ rest) fun o u => ∃ ids, o = some ids ∧
        ∃ a, ids = (frame ++ [(a, x)]).map (·.1) ∧ Holds u (below ++ (frame ++ [(a, x)])) := by
    refine .accept hs rfl (separator?_ne_endOfInput hsep) fun s₁ r₁ c₁ k₁ => ?_
    have item := Completed.nestedIn ix room .operand s₁ (ts ++ rest) _ (by rw [c₁, hroom]) r₁
      (hd.closes_items hr) (k₁ _ h)
    refine .bind_last item fun a u hu _ ha => .pure hu ⟨_, rfl, a, ?_, ?_⟩
    · simp
    · simpa using ha
  refine .repeated_some (steady_items hsep room) step fun ids u hu hc ha => ?_
  obtain ⟨a, rfl, ha⟩ := ha
  refine (ih t.kind (frame ++ [(a, x)]) u rest below room hsep (by rw [hc, hroom]) hu hr
    (by simp [hf]) ha).imp ?_
  intro ids v read
  obtain ⟨longer, hids, he, hlen, -, hv⟩ := read
  rw [List.length_append, List.length_singleton] at hlen
  exact ⟨longer, hids, he, by omega, fun _ => by omega, hv⟩

theorem followed_list {r : Rule} {xs ts : List Token} {x e : Expr} {n m : Nat}
    (hr : r.separator?.isSome) (ix : Followed (.rule r.tighter) xs x n)
    (hd : Derives (.items r [x]) ts e m) (ih : Followed (.items r [x]) ts e m) :
    Followed (.rule r) (xs ++ ts) e (max n m) := by
  intro room s rest below hroom hs hc h
  obtain ⟨separator, hsep⟩ := Option.isSome_iff_exists.1 hr
  have unfolded : apply (nestedIn room) r =
      separated (nestedIn room) separator r.listed (apply (nestedIn room) r.tighter) r.tighter := by
    cases r <;> cases hsep <;> rfl
  rw [unfolded]
  rw [List.append_assoc] at hs
  refine .peek (.bind (ix room s (ts ++ rest) below hroom hs (hd.closes_items hc) h)
    fun a t ht hct ha => .peek ?_)
  rw [here_kind, ht]
  by_cases hnil : ts = []
  · subst hnil
    rw [List.nil_append, if_neg (ahead_ne_separator hsep hc)]
    cases hd
    exact .pure ht ha
  · have starts : ahead (ts ++ rest) = separator := by
      cases hd with
      | noItem => exact absurd rfl hnil
      | item hk => exact (Option.some.inj (hsep.symm.trans hk)).symm
    rw [if_pos starts]
    refine .bind_last (ih separator [(a, x)] t rest below room hsep
      (by rw [hct, hroom]) ht hc rfl ha) ?_
    intro ids u hu _ read
    obtain ⟨longer, rfl, rfl, -, hlen, hv⟩ := read
    have two : 2 ≤ longer.length := hlen hnil
    rw [Rule.joined_of_two (by rwa [List.length_map]), ← Rule.map_listed, ← Rule.map_listed]
    refine .enter (r.listed longer) hv (by rw [Rule.children_listed]) ?_ hu
    rw [Rule.map_listed]
    exact r.proper_listed (by rwa [List.length_map])

theorem followed_compared {o : Token} {xs ys : List Token} {x y : Expr} {n m : Nat}
    (ho : o.kind = .relation) (ix : Followed (.rule .sum) xs x n) (hy : Derives (.rule .sum) ys y m)
    (iy : Followed (.rule .sum) ys y m) :
    Followed (.rule .relation) (xs ++ o :: ys)
      (.node (.binary (.relation (String.ofList (spokenForm o.text))) x y)) (max n (m + 1)) := by
  intro room s rest below hroom hs hr h
  rw [List.append_assoc, List.cons_append] at hs
  refine .peek (.bind (ix room s _ below hroom hs (by simp [ho, closing, Rule.looseness]) h)
    fun a t ht ct ha => .peek ?_)
  rw [here_cons ht, if_pos ho]
  refine .advance ht (by simp [ho]) fun s₁ r₁ c₁ k₁ => ?_
  have right := Completed.operand hy iy room s₁ rest _ (by rw [c₁, ct, hroom]) r₁
    (Nat.le_trans (by decide) hr) (k₁ _ ha)
  refine .bind_last right fun b u hu _ hb => .peek ?_
  rw [here_kind, hu, if_neg (ne_of_closing hr (by decide))]
  have parts : Holds u (below ++ [(a, x), (b, y)]) := by simpa using hb
  exact .enter (.binary _ (a, x) (b, y)) parts (.refl _) trivial hu

theorem followed_prefixed {t : Token} {o : PrefixOperator} {xs : List Token} {x : Expr} {n : Nat}
    (ho : unaryOf? t.kind = some o) (hx : Derives (.rule .unary) xs x n)
    (ix : Followed (.rule .unary) xs x n) :
    Followed (.rule .unary) (t :: xs) (.node (.unary o x)) (n + 1) := by
  intro room s rest below hroom hs hr h
  refine .peek ?_
  rw [here_cons hs, prefixOf?_eq, ho]
  have hk : t.kind ≠ .endOfInput := ne_endOfInput_of_readable (readable_unaryOf? ho)
  refine .advance hs hk fun s₁ r₁ c₁ k₁ => ?_
  have inner := Completed.operand hx ix room s₁ rest _ (by rw [c₁, hroom]) r₁ hr (k₁ _ h)
  exact .bind_last inner fun a u hu _ ha => .enter (.unary o (a, x)) ha (.refl _) trivial hu

theorem followed_sourced {o : Token} {xs ys : List Token} {x y : Expr} {n m : Nat}
    (ho : o.kind = .ofWord) (hx : Derives (.rule .selection) xs x n)
    (ix : Followed (.rule .selection) xs x n) (iy : Followed (.rule .property) ys y m) :
    Followed (.rule .property) (xs ++ o :: ys) (.node (.property x y)) (max n (m + 1)) := by
  intro room s rest below hroom hs hr h
  rw [List.append_assoc, List.cons_append] at hs
  have starts := hx.opens_here hs
  rw [here_kind] at starts
  refine .peek (.accept_ne (ne_of_opening starts (by decide)) ?_)
  refine .bind (ix room s _ below hroom hs (by simp [ho, closing, Rule.looseness]) h)
    fun a t ht ct ha => ?_
  refine .accept ht ho (by decide) fun s₁ r₁ c₁ k₁ => ?_
  have source := Completed.nestedIn iy room .propertyChain s₁ rest _ (by rw [c₁, ct, hroom]) r₁ hr
    (k₁ _ ha)
  refine .bind_last source fun b u hu _ hb => ?_
  have parts : Holds u (below ++ [(a, x), (b, y)]) := by simpa using hb
  exact .enter (.property (a, x) (b, y)) parts (.refl _) trivial hu

theorem followed_its {i : Token} {xs ts : List Token} {x e : Expr} {n m : Nat}
    (hi : i.kind = .itsWord) (ix : Followed (.rule .selection) xs x n)
    (hd : Derives (.more .property (.node (.property x (.node .it)))) ts e m)
    (ih : Followed (.more .property (.node (.property x (.node .it)))) ts e m) :
    Followed (.rule .property) (i :: (xs ++ ts)) e (max (n + 1) m) := by
  intro room s rest below hroom hs hr h
  rw [List.cons_append, List.append_assoc] at hs
  refine .peek (.accept hs hi (by decide) fun s₁ r₁ c₁ k₁ => ?_)
  have nothing : Holds s₁ (below ++ []) := by simpa using k₁ _ h
  refine .enter_bind .it nothing (.refl _) trivial fun it s₂ r₂ c₂ h₂ => ?_
  have accessor := Completed.nestedIn ix room .propertyChain s₂ (ts ++ rest) _
    (by rw [c₂, c₁, hroom]) (r₂.trans r₁)
    (hd.closes_more hr) h₂
  refine .bind accessor fun a s₃ r₃ c₃ h₃ => ?_
  have parts : Holds s₃ (below ++ [(it, .node .it), (a, x)]) := by simpa [Shape.map] using h₃
  refine .enter_bind (.property (a, x) (it, .node .it)) parts (.swap _ _ _) trivial
    fun chosen s₄ r₄ c₄ h₄ => ?_
  exact ih _ chosen s₄ rest below room (by rw [c₄, c₃, c₂, c₁, hroom]) (r₄.trans r₃) hr h₄

/-- What may follow a reference cannot start the argument of a phrase. -/
theorem startsPrimary_iff {k : Kind} : k.startsPrimary ↔ opening k = 0 := by cases k <;> decide

theorem followed_phrase {p : Token} (hp : p.kind = .phrase) :
    Followed (.rule .reference) [p] (.node (.phrase (phraseName p.text) none)) 0 := by
  intro room s rest below hroom hs hr h
  refine .peek ?_
  rw [here_cons hs, if_pos hp]
  refine .advance hs (by simp [hp]) fun s₁ r₁ c₁ k₁ => .peek ?_
  rw [if_neg]
  · have nothing : Holds s₁ (below ++ []) := by simpa using k₁ _ h
    exact .enter (.phrase (phraseName p.text) none) nothing (.refl _) trivial r₁
  · rw [here_kind, show s₁.rest = rest from r₁]
    revert hr
    cases ahead rest <;> decide

theorem followed_applied {p : Token} {xs : List Token} {x : Expr} {n : Nat} (hp : p.kind = .phrase)
    (hx : Derives (.rule .primary) xs x n) (ix : Followed (.rule .primary) xs x n) :
    Followed (.rule .reference) (p :: xs) (.node (.phrase (phraseName p.text) (some x)))
      (n + 1) := by
  intro room s rest below hroom hs hr h
  refine .peek ?_
  rw [here_cons hs, if_pos hp]
  refine .advance hs (by simp [hp]) fun s₁ r₁ c₁ k₁ => .peek ?_
  rw [if_pos (startsPrimary_iff.2 (Nat.le_zero.1 (hx.opens_here r₁)))]
  have argument := Completed.nestedIn ix room .phraseArgument s₁ rest _ (by rw [c₁, hroom]) r₁
    (Nat.zero_le _) (k₁ _ h)
  have argument : Meets (some <$> nestedIn room .phraseArgument .primary) s₁ (n + 1) rest fun o t =>
      ∃ a, o = some a ∧ Holds t (below ++ [(a, x)]) :=
    .map (argument.imp fun a _ ha => ⟨a, rfl, ha⟩)
  refine .bind_last argument ?_
  intro o u hu _ read
  obtain ⟨a, rfl, ha⟩ := read
  exact .enter (.phrase (phraseName p.text) (some (a, x))) ha (.refl _) trivial hu

theorem followed_parens {o c : Token} {xs : List Token} {x : Expr} {n : Nat}
    (ho : o.kind = .leftParen) (hc : c.kind = .rightParen)
    (ix : Followed (.rule .expression) xs x n) :
    Followed (.rule .primary) (o :: (xs ++ [c])) (.node (.parens x)) (n + 1) := by
  intro room s rest below hroom hs hr h
  refine .peek ?_
  rw [here_cons hs, ho]
  refine .advance hs (by simp [ho]) fun s₁ r₁ c₁ k₁ => ?_
  have content := Completed.nestedIn ix room .parenthesized s₁ (c :: rest) _ (by rw [c₁, hroom])
    (by simpa using r₁)
    (by simp [hc, closing, Rule.looseness]) (k₁ _ h)
  refine .bind_last content fun a u hu _ ha => .accept hu hc (by decide) fun s₂ r₂ _ k₂ => ?_
  exact .enter (.parens (a, x)) (k₂ _ ha) (.refl _) trivial r₂

theorem followed_leaf {t : Token} {shape : Shape Expr} (ht : leaf? t = some shape) :
    Followed (.rule .primary) [t] (.node shape) 0 := by
  intro room s rest below hroom hs hr h
  refine .peek ?_
  rw [here_cons hs]
  have entered (shape : Shape (NodeId × Expr)) (hn : shape.children = [])
      (hs' : (shape.map (·.1)).Proper) (hk : t.kind ≠ .endOfInput) :
      Meets (advance >>= fun _ => enter (shape.map (·.1)) t.start) s 0 rest
        fun a u => Holds u (below ++ [(a, .node (shape.map (·.2)))]) := by
    refine .advance hs hk fun s₁ r₁ c₁ k₁ => ?_
    have nothing : Holds s₁ (below ++ []) := by simpa using k₁ _ h
    exact .enter shape nothing (by rw [hn]) hs' r₁
  unfold leaf? at ht
  split at ht <;> cases ht
  all_goals
    rename_i hk
    rw [hk]
  · exact entered (.string (unquoted t.text)) rfl trivial (by simp [hk])
  · exact entered (.number (String.ofList t.text)) rfl trivial (by simp [hk])
  · exact entered .it rfl trivial (by simp [hk])
  · exact entered .marker rfl trivial (by simp [hk])

/-- The parser follows every derivation. -/
theorem Derives.followed {p : Part} {ts : List Token} {e : Expr} {n : Nat} (h : Derives p ts e n) :
    Followed p ts e n := by
  induction h with
  | conditional hi ht he _ _ _ ic ia ib => exact followed_conditional hi ht he ic ia ib
  | pass _ hd ih => exact followed_pass hd ih
  | list hr _ hd ix ih => exact followed_list hr ix hd ih
  | noItem => exact followed_noItem
  | item ht _ hd ix ih => exact followed_item ht ix hd ih
  | compared ho _ hy ix iy => exact followed_compared ho ix hy iy
  | chain hr hx hd ix ih => exact followed_chain hr hx ix hd ih
  | done => exact followed_done
  | operator ho hx hd ix ih => exact followed_operator ho hx ix hd ih
  | prefixed ho hx ix => exact followed_prefixed ho hx ix
  | typed ha hp hd ih => exact followed_typed ha hp hd ih
  | sourced ho hx _ ix iy => exact followed_sourced ho hx ix iy
  | its hi _ hd ix ih => exact followed_its hi ix hd ih
  | arrow hw hx hd ix ih => exact followed_arrow hw hx ix hd ih
  | arrowExists hw ht hd ih => exact followed_arrowExists hw ht hd ih
  | filtered hw _ hd ix ih => exact followed_filtered hw ix hd ih
  | phrase hp => exact followed_phrase hp
  | applied hp hx ix => exact followed_applied hp hx ix
  | parens ho hc _ ix => exact followed_parens ho hc ix
  | leaf ht => exact followed_leaf ht

end InventoryQuery.Grammar
