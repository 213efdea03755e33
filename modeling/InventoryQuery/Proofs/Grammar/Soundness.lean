import InventoryQuery.Proofs.Grammar.Derivation
import InventoryQuery.Proofs.Grammar.Locality

/-! What a rule reads can be derived from it, and where it fails, what it has read can still be
completed: an error never comes later than it has to. Nesting is the one reason to fail that says
nothing about the input. -/

namespace InventoryQuery.Grammar

variable {α β : Type}

def Derivable (p : Part) (ts : List Token) : Prop := ∃ e n, Derives p ts e n

/-- The beginning of something that can be derived. -/
def Extendable (p : Part) (ts : List Token) : Prop := ∃ us, Derivable p (ts ++ us)

theorem extendable_nil (r : Rule) : Extendable (.rule r) [] := ⟨_, _, _, derives_numeral r⟩

/-- A run from `s` reads tokens as `reads` says, or fails at the token that comes next after tokens
as `begins` says. -/
def Sound (p : Parser α) (s : State) (reads : List Token → α → Prop) (begins : List Token → Prop) :
    Prop :=
  match p s with
  | .ok a t => ∃ c, s.rest = c ++ t.rest ∧ reads c a
  | .error e t => e.code = .nestedTooDeeply ∨ e.span = t.here.span ∧ ∃ c, s.rest = c ++ t.rest ∧
    begins c

namespace Sound

variable {s : State} {reads : List Token → β → Prop} {begins : List Token → Prop}

theorem imp {p : Parser β} {reads' : List Token → β → Prop} {begins' : List Token → Prop}
    (h : Sound p s reads begins) (hr : ∀ c b, reads c b → reads' c b)
    (hb : ∀ c, begins c → begins' c) : Sound p s reads' begins' := by
  unfold Sound at *
  cases hp : p s with
  | ok b t =>
    rw [hp] at h
    obtain ⟨c, hc, h⟩ := h
    exact ⟨c, hc, hr c b h⟩
  | error e t =>
    rw [hp] at h
    exact h.imp id fun ⟨he, c, hc, h⟩ => ⟨he, c, hc, hb c h⟩

theorem pure {b : β} (h : reads [] b) : Sound (Pure.pure b) s reads begins := ⟨[], rfl, h⟩

theorem enter {shape : Shape NodeId} {start : Nat} {reads : List Token → NodeId → Prop}
    (h : ∀ id, reads [] id) : Sound (enter shape start) s reads begins :=
  ⟨[], rfl, h _⟩

theorem enter_bind {shape : Shape NodeId} {start : Nat} {q : NodeId → Parser β}
    (h : ∀ id t, Sound (q id) t reads begins) :
    Sound (Grammar.enter shape start >>= q) s reads begins :=
  h s.nodes.size (s.entered shape start)

theorem failWith {cause : State → Cause} (h : begins []) :
    Sound (failWith cause : Parser β) s reads begins :=
  .inr ⟨rfl, [], rfl, h⟩

/-- After the tokens `c` the run goes on from `t`. -/
theorem of_rest {p q : Parser β} {t : State} {c : List Token} (hr : p s = q t)
    (hc : s.rest = c ++ t.rest)
    (h : Sound q t (fun d b => reads (c ++ d) b) (fun d => begins (c ++ d))) :
    Sound p s reads begins := by
  unfold Sound at *
  rw [hr]
  cases hq : q t with
  | error e u =>
    rw [hq] at h
    refine h.imp id fun found => ?_
    obtain ⟨he, d, hd, hb⟩ := found
    exact ⟨he, c ++ d, by rw [hc, hd, List.append_assoc], hb⟩
  | ok b u =>
    rw [hq] at h
    obtain ⟨d, hd, hb⟩ := h
    exact ⟨c ++ d, by rw [hc, hd, List.append_assoc], hb⟩

theorem bind {p : Parser α} {q : α → Parser β} {reads' : List Token → α → Prop}
    {begins' : List Token → Prop} (hp : Sound p s reads' begins') (hb : ∀ c, begins' c → begins c)
    (hq : ∀ a t c, reads' c a →
        Sound (q a) t (fun d b => reads (c ++ d) b) (fun d => begins (c ++ d))) :
    Sound (p >>= q) s reads begins := by
  unfold Sound at hp
  cases h : p s with
  | error e t =>
    rw [h] at hp
    unfold Sound
    rw [bind_apply, h]
    refine hp.imp id fun found => ?_
    obtain ⟨he, c, hc, hr⟩ := found
    exact ⟨he, c, hc, hb c hr⟩
  | ok a t =>
    rw [h] at hp
    obtain ⟨c, hc, hr⟩ := hp
    exact of_rest (by rw [bind_apply, h]) hc (hq a t c hr)

theorem map {p : Parser α} {f : α → β} (h : Sound p s (fun c a => reads c (f a)) begins) :
    Sound (f <$> p) s reads begins :=
  bind (q := fun a => Pure.pure (f a)) h (fun _ => id)
    fun _ _ c hc => pure (by rwa [List.append_nil])

theorem peek {q : Token → Parser β} (h : Sound (q s.here) s reads begins) :
    Sound (peek >>= q) s reads begins := h

theorem advance {q : Unit → Parser β} (h : s.here.kind ≠ .endOfInput)
    (hq : Sound (q ()) s.advanced (fun d b => reads (s.here :: d) b)
        (fun d => begins (s.here :: d))) : Sound (advance >>= q) s reads begins :=
  of_rest (c := [s.here]) (advance_bind q s) (rest_eq_here_cons h) hq

theorem accept {k : Kind} {q : Bool → Parser β} (hk : k ≠ .endOfInput)
    (yes : s.here.kind = k →
      Sound (q true) s.advanced (fun d b => reads (s.here :: d) b) (fun d => begins (s.here :: d)))
    (no : s.here.kind ≠ k → Sound (q false) s reads begins) :
    Sound (accept k >>= q) s reads begins := by
  by_cases h : s.here.kind = k
  · exact of_rest (c := [s.here]) (accept_bind_of_eq h q) (rest_eq_here_cons (h ▸ hk)) (yes h)
  · exact of_rest (c := []) (accept_bind_of_ne h q) rfl (no h)

/-- What one step reads stands in front of what the steps after it read. -/
def Continues {ι : Type} (P : ι → Part) (c : List Token) : Option α → Prop
  | none => c = []
  | some _ => ∀ i, ∃ j, ∀ d, Derivable (P j) d → Derivable (P i) (c ++ d)

theorem repeated {ι : Type} {P : ι → Part} {step : α → Parser (Option α)} (hp : Steady step)
    (hend : ∀ i, Derivable (P i) [])
    (hstep : ∀ a s, Sound (step a) s (Continues P) (fun c => ∀ i, Extendable (P i) c)) (a : α)
    (s : State) :
    Sound (repeated step a) s (fun c _ => ∀ i, Derivable (P i) c)
      (fun c => ∀ i, Extendable (P i) c) := by
  induction hn : s.rest.length using Nat.strongRecOn generalizing a s with
  | ind n ih =>
    have first := hstep a s
    unfold Sound at first
    cases h : step a s with
    | error e t =>
      rw [h] at first
      unfold Sound
      rw [hp.repeated_error h]
      exact first
    | ok o t =>
      rw [h] at first
      obtain ⟨c, hc, hr⟩ := first
      cases o with
      | none =>
        unfold Sound
        rw [hp.repeated_none h]
        cases hr
        exact ⟨[], hc, hend⟩
      | some b =>
        have shorter : t.rest.length < s.rest.length := hp.progresses a s b t h
        have later := ih t.rest.length (by omega) b t rfl
        refine of_rest (hp.repeated_some h) hc (later.imp (fun d _ hd i => ?_) fun d hd i => ?_)
        · obtain ⟨j, hj⟩ := hr i
          exact hj d (hd j)
        · obtain ⟨j, hj⟩ := hr i
          obtain ⟨us, hu⟩ := hd j
          exact ⟨us, by rw [List.append_assoc]; exact hj _ hu⟩

end Sound

/-- The parser reads parts as the rule describes them. -/
def Faithful (p : Parser NodeId) (r : Rule) : Prop :=
  ∀ s, Sound p s (fun c _ => Derivable (.rule r) c) (Extendable (.rule r))

theorem Derivable.loosen {r : Rule} {ts : List Token} :
    Derivable (.rule r.tighter) ts → Derivable (.rule r) ts
  | ⟨e, n, h⟩ => ⟨e, n, h.loosen⟩

theorem Extendable.loosen {r : Rule} {ts : List Token} :
    Extendable (.rule r.tighter) ts → Extendable (.rule r) ts
  | ⟨us, h⟩ => ⟨us, h.loosen⟩

theorem Faithful.loosen {p : Parser NodeId} {r : Rule} (h : Faithful p r.tighter) : Faithful p r :=
  fun s => (h s).imp (fun _ _ => Derivable.loosen) fun _ => Extendable.loosen

section rules

variable {nested : Context → Rule → Parser NodeId}

theorem faithful_primary (hn : ∀ c r, Faithful (nested c r) r) :
    Faithful (primary nested) .primary := by
  intro s
  have leaf {shape : Shape Expr} {node : Shape NodeId} (h : leaf? s.here = some shape) :
      Sound (advance >>= fun _ => enter node s.here.start) s
        (fun c _ => Derivable (.rule .primary) c) (Extendable (.rule .primary)) :=
    .advance (fun hk => by simp [leaf?, hk] at h) (.enter fun _ => ⟨_, _, .leaf h⟩)
  refine .peek ?_
  split
  · rename_i hk
    refine .advance (by simp [hk]) (.bind (hn _ _ _) ?_ fun content t c hc => ?_)
    · intro c h
      obtain ⟨us, e, n, h⟩ := h
      exact ⟨us ++ [sample .rightParen], _, _, by simpa using Derives.parens hk rfl h⟩
    · obtain ⟨e, n, h⟩ := hc
      refine .accept (by decide) (fun hr => .enter fun _ => ⟨_, _, .parens hk hr h⟩)
        fun _ => .failWith ?_
      exact ⟨[sample .rightParen], _, _, by simpa using Derives.parens hk rfl h⟩
  · rename_i hk; exact leaf (by simp [leaf?, hk]; rfl)
  · rename_i hk; exact leaf (by simp [leaf?, hk]; rfl)
  · rename_i hk; exact leaf (by simp [leaf?, hk]; rfl)
  · rename_i hk; exact leaf (by simp [leaf?, hk]; rfl)
  · exact .failWith (extendable_nil _)

theorem faithful_reference (hn : ∀ c r, Faithful (nested c r) r) :
    Faithful (reference nested) .reference := by
  intro s
  refine .peek ?_
  split
  · rename_i hp
    refine .advance (by simp [hp]) (.peek ?_)
    split
    · have argument : Sound (some <$> nested .phraseArgument .primary) s.advanced
          (fun c _ => Derivable (.rule .primary) c) (Extendable (.rule .primary)) := .map (hn _ _ _)
      refine .bind argument ?_ ?_
      · intro c h
        obtain ⟨us, e, n, h⟩ := h
        exact ⟨us, _, _, .applied hp h⟩
      · intro a t c h
        obtain ⟨e, n, h⟩ := h
        exact .enter fun _ => ⟨_, _, by simpa using Derives.applied hp h⟩
    · exact .enter fun _ => ⟨_, _, .phrase hp⟩
  · exact (faithful_primary hn).loosen s

theorem sound_whoseStep (hn : ∀ c r, Faithful (nested c r) r) (start : Nat) (source : NodeId)
    (s : State) :
    Sound (whoseStep nested start source) s (Sound.Continues (Part.more .selection))
      (fun c => ∀ left, Extendable (.more .selection left) c) := by
  refine .accept (by decide) (fun hw => ?_) fun _ => .pure rfl
  refine .bind (hn _ _ _) ?_ fun filter t c hx => ?_
  · intro c hx left
    obtain ⟨us, x, n, hx⟩ := hx
    exact ⟨us, _, _, by simpa using Derives.filtered hw hx .done⟩
  · obtain ⟨x, n, hx⟩ := hx
    refine .map (.enter fun _ left => ⟨.node (.whose left x), fun d hd => ?_⟩)
    obtain ⟨e, m, hd⟩ := hd
    exact ⟨_, _, by simpa using Derives.filtered hw hx hd⟩

/-- A rule with a repetition reads a part of the next tighter rule and then repeats a step. -/
theorem faithful_repetition {r : Rule} (hr : r.repeats) {first : Parser NodeId}
    (hf : Faithful first r.tighter) {step : Nat → NodeId → Parser (Option NodeId)}
    (hp : ∀ start, Steady (step start))
    (hs : ∀ start a s,
        Sound (step start a) s (Sound.Continues (Part.more r))
          (fun c => ∀ left, Extendable (.more r left) c)) :
    Faithful (do let t ← peek; let left ← first; repeated (step t.start) left) r := by
  intro s
  refine .peek (.bind (hf s) (fun _ => Extendable.loosen) fun left t c hx => ?_)
  obtain ⟨x, n, hx⟩ := hx
  refine (Sound.repeated (hp _) (fun _ => ⟨_, _, .done⟩) (hs _) left t).imp (fun d _ hd => ?_)
    fun d hd => ?_
  · obtain ⟨e, m, hd⟩ := hd x
    exact ⟨e, _, .chain hr hx hd⟩
  · obtain ⟨us, e, m, hd⟩ := hd x
    exact ⟨us, e, _, by simpa using Derives.chain hr hx hd⟩

theorem faithful_selection (hl : ∀ c r, Local (nested c r)) (hn : ∀ c r, Faithful (nested c r) r) :
    Faithful (selection nested) .selection :=
  faithful_repetition (r := .selection) rfl (faithful_reference hn) (steady_whoseStep hl)
    (sound_whoseStep hn)

theorem sound_arrowStep (hn : ∀ c r, Faithful (nested c r) r) (start : Nat) (source : NodeId)
    (s : State) :
    Sound (arrowStep nested start source) s (Sound.Continues (Part.more .property))
      (fun c => ∀ left, Extendable (.more .property left) c) := by
  refine .accept (by decide) (fun hw => .peek ?_) fun _ => .pure rfl
  have existence {o : PrefixOperator} {node : Shape NodeId}
      (ho : existenceOf? s.advanced.here.kind = some o) :
      Sound (advance >>= fun _ => some <$> enter node start) s.advanced
        (fun d => Sound.Continues (Part.more .property) (s.here :: d))
        (fun d => ∀ left, Extendable (.more .property left) (s.here :: d)) := by
    refine .advance (fun hk => by simp [existenceOf?, hk] at ho) (.map (.enter fun _ left => ?_))
    refine ⟨.node (.unary o left), fun d hd => ?_⟩
    obtain ⟨e, m, hd⟩ := hd
    exact ⟨_, _, .arrowExists hw ho hd⟩
  split
  · rename_i hk; exact existence (by rw [hk]; rfl)
  · rename_i hk; exact existence (by rw [hk]; rfl)
  · refine .bind (hn _ _ _) ?_ fun accessor t c hx => ?_
    · intro c hx left
      obtain ⟨us, x, n, hx⟩ := hx
      exact ⟨us, _, _, by simpa using Derives.arrow hw hx .done⟩
    · obtain ⟨x, n, hx⟩ := hx
      refine .map (.enter fun _ left => ⟨.node (.property x left), fun d hd => ?_⟩)
      obtain ⟨e, m, hd⟩ := hd
      exact ⟨_, _, by simpa using Derives.arrow hw hx hd⟩

theorem faithful_property (hl : ∀ c r, Local (nested c r)) (hn : ∀ c r, Faithful (nested c r) r) :
    Faithful (property nested) .property := by
  intro s
  have arrows (start : Nat) (chosen : NodeId) (t : State) :=
    Sound.repeated (P := Part.more .property) (steady_arrowStep hl start)
      (fun _ => ⟨_, _, .done⟩) (sound_arrowStep hn start) chosen t
  refine .peek (.accept (by decide) (fun hi => ?_) fun _ => ?_)
  · refine .enter_bind fun it t => .bind (hn _ _ _) ?_ fun accessor u c hx =>
      .enter_bind fun chosen v => ?_
    · intro c hx
      obtain ⟨us, x, n, hx⟩ := hx
      exact ⟨us, _, _, by simpa using Derives.its hi hx .done⟩
    · obtain ⟨x, n, hx⟩ := hx
      refine (arrows _ chosen v).imp (fun d _ hd => ?_) fun d hd => ?_
      · obtain ⟨e, m, hd⟩ := hd _
        exact ⟨_, _, by simpa using Derives.its hi hx hd⟩
      · obtain ⟨us, e, m, hd⟩ := hd _
        exact ⟨us, _, _, by simpa using Derives.its hi hx hd⟩
  · refine .bind (faithful_selection hl hn s) (fun _ => Extendable.loosen (r := .property))
      fun chosen t c hx => ?_
    obtain ⟨x, n, hx⟩ := hx
    refine .accept (by decide) (fun ho => ?_) fun _ => ?_
    · refine .bind (hn _ _ _) ?_ fun source u d hy => ?_
      · intro d hy
        obtain ⟨us, y, m, hy⟩ := hy
        exact ⟨us, _, _, by simpa using Derives.sourced ho hx hy⟩
      · obtain ⟨y, m, hy⟩ := hy
        exact .enter fun _ => ⟨_, _, by simpa using Derives.sourced ho hx hy⟩
    · refine (arrows _ chosen t).imp (fun d _ hd => ?_) fun d hd => ?_
      · obtain ⟨e, m, hd⟩ := hd x
        exact ⟨_, _, .chain (r := .property) rfl hx hd⟩
      · obtain ⟨us, e, m, hd⟩ := hd x
        exact ⟨us, _, _, by simpa using Derives.chain (r := .property) rfl hx hd⟩

theorem sound_castStep (start : Nat) (source : NodeId) (s : State) :
    Sound (castStep start source) s (Sound.Continues (Part.more .cast))
      (fun c => ∀ left, Extendable (.more .cast left) c) := by
  refine .accept (by decide) (fun ha => .peek ?_) fun _ => .pure rfl
  split
  · rename_i hp
    refine .advance (by simp [hp]) (.map (.enter fun _ left => ?_))
    refine ⟨.node (.cast left (phraseName s.advanced.here.text)), fun d hd => ?_⟩
    obtain ⟨e, m, hd⟩ := hd
    exact ⟨_, _, .typed ha hp hd⟩
  · exact .failWith fun left => ⟨[sample .phrase], _, _, by simpa using Derives.typed ha rfl .done⟩

theorem faithful_cast (hl : ∀ c r, Local (nested c r)) (hn : ∀ c r, Faithful (nested c r) r) :
    Faithful (cast nested) .cast :=
  faithful_repetition (r := .cast) rfl (faithful_property hl hn) steady_castStep sound_castStep

theorem faithful_operand (hn : ∀ c r, Faithful (nested c r) r) (r : Rule) :
    Faithful (operand nested r) r := by
  intro s
  refine .peek ?_
  split
  · exact .failWith (extendable_nil r)
  · exact hn _ _ s

theorem faithful_unary (hl : ∀ c r, Local (nested c r)) (hn : ∀ c r, Faithful (nested c r) r) :
    Faithful (unary nested) .unary := by
  intro s
  refine .peek ?_
  rw [prefixOf?_eq]
  split
  · rename_i o ho
    refine .advance (fun hk => by rw [hk] at ho; cases ho)
      (.bind (faithful_operand hn _ _) ?_ fun inner t c hx => ?_)
    · intro c hx
      obtain ⟨us, x, n, hx⟩ := hx
      exact ⟨us, _, _, .prefixed ho hx⟩
    · obtain ⟨x, n, hx⟩ := hx
      exact .enter fun _ => ⟨_, _, by simpa using Derives.prefixed ho hx⟩
  · exact (faithful_cast hl hn).loosen s

theorem sound_chainStep (hn : ∀ c r, Faithful (nested c r) r) {r : Rule} (start : Nat)
    (left : NodeId) (s : State) :
    Sound (chainStep nested r.infixOf? r.tighter start left) s (Sound.Continues (Part.more r))
      (fun c => ∀ left, Extendable (.more r left) c) := by
  refine .peek ?_
  cases ho : r.infixOf? s.here.kind with
  | none => exact .pure rfl
  | some o =>
    have hk : s.here.kind ≠ .endOfInput := ne_endOfInput_of_readable (readable_infixOf? ho)
    refine .advance hk (.bind (faithful_operand hn _ _) ?_ fun inner t c hx => ?_)
    · intro c hx left
      obtain ⟨us, x, n, hx⟩ := hx
      exact ⟨us, _, _, by simpa using Derives.operator ho hx .done⟩
    · obtain ⟨x, n, hx⟩ := hx
      refine .map (.enter fun _ left => ⟨.node (.binary o left x), fun d hd => ?_⟩)
      obtain ⟨e, m, hd⟩ := hd
      exact ⟨_, _, by simpa using Derives.operator ho hx hd⟩

theorem faithful_chain (hl : ∀ c r, Local (nested c r)) (hn : ∀ c r, Faithful (nested c r) r)
    {r : Rule} (hr : r.repeats) {first : Parser NodeId} (hf : Faithful first r.tighter) :
    Faithful (chain nested r.infixOf? first r.tighter) r :=
  faithful_repetition hr hf (steady_chainStep hl (by cases r <;> rfl) _) (sound_chainStep hn)

theorem faithful_relation (hn : ∀ c r, Faithful (nested c r) r) (hs : Faithful (sum nested) .sum) :
    Faithful (relation nested) .relation := by
  intro s
  refine .peek (.bind (hs s) (fun _ => Extendable.loosen (r := .relation))
    fun left t c hx => .peek ?_)
  obtain ⟨x, n, hx⟩ := hx
  split
  · rename_i ho
    refine .advance (by simp [ho]) (.bind (faithful_operand hn _ _) ?_ fun right u d hy => .peek ?_)
    · intro d hy
      obtain ⟨us, y, m, hy⟩ := hy
      exact ⟨us, _, _, by simpa using Derives.compared ho hx hy⟩
    · obtain ⟨y, m, hy⟩ := hy
      split
      · exact .failWith ⟨[], _, _, by simpa using Derives.compared ho hx hy⟩
      · exact .enter fun _ => ⟨_, _, by simpa using Derives.compared ho hx hy⟩
  · exact .pure ⟨_, _, by simpa using Derives.loosen (r := .relation) hx⟩

theorem sound_itemStep (hn : ∀ c r, Faithful (nested c r) r) {r : Rule} {separator : Kind}
    (hs : r.separator? = some separator) (items : List NodeId) (s : State) :
    Sound (itemStep nested separator r.tighter items) s (Sound.Continues (Part.items r))
      (fun c => ∀ done, Extendable (.items r done) c) := by
  have hk : separator ≠ .endOfInput := by cases r <;> cases hs <;> decide
  refine .accept hk (fun ht => ?_) fun _ => .pure rfl
  rw [← ht] at hs
  refine .bind (hn _ _ _) ?_ fun item t c hx => ?_
  · intro c hx done
    obtain ⟨us, x, n, hx⟩ := hx
    exact ⟨us, _, _, by simpa using Derives.item hs hx .noItem⟩
  · obtain ⟨x, n, hx⟩ := hx
    refine .pure fun done => ⟨done ++ [x], fun d hd => ?_⟩
    obtain ⟨e, m, hd⟩ := hd
    exact ⟨_, _, by simpa using Derives.item hs hx hd⟩

theorem faithful_separated (hl : ∀ c r, Local (nested c r)) (hn : ∀ c r, Faithful (nested c r) r)
    {r : Rule} {separator : Kind} (hs : r.separator? = some separator)
    (make : List NodeId → Shape NodeId) {first : Parser NodeId} (hf : Faithful first r.tighter) :
    Faithful (separated nested separator make first r.tighter) r := by
  intro s
  have hk : separator ≠ .endOfInput := by cases r <;> cases hs <;> decide
  have hr : r.separator?.isSome := by rw [hs]; rfl
  refine .peek (.bind (hf s) (fun _ => Extendable.loosen) fun one t c hx => .peek ?_)
  obtain ⟨x, n, hx⟩ := hx
  split
  · refine .bind (Sound.repeated (steady_itemStep hl hk _) (fun _ => ⟨_, _, .noItem⟩)
      (sound_itemStep hn hs) _ t)
      (fun d hd => ?_) fun items u d hd => .enter fun _ => ?_
    · obtain ⟨us, e, m, hd⟩ := hd [x]
      exact ⟨us, _, _, by simpa using Derives.list hr hx hd⟩
    · obtain ⟨e, m, hd⟩ := hd [x]
      exact ⟨_, _, by simpa using Derives.list hr hx hd⟩
  · exact .pure ⟨_, _, by simpa using Derives.loosen hx⟩

theorem faithful_expression (hn : ∀ c r, Faithful (nested c r) r)
    (hc : Faithful (collection nested) .collection) : Faithful (expression nested) .expression := by
  intro s
  refine .peek ?_
  split
  · rename_i hi
    have anything := derives_numeral .expression
    refine .advance (by simp [hi]) (.bind (hn _ _ _) ?_ fun condition t c hx => ?_)
    · intro c hx
      obtain ⟨us, x, n, hx⟩ := hx
      exact ⟨us ++ sample .thenWord :: sample .numeral :: sample .elseWord :: [sample .numeral],
        _, _, by simpa using Derives.conditional hi rfl rfl hx anything anything⟩
    obtain ⟨x, n, hx⟩ := hx
    refine .accept (by decide) (fun ht => ?_) fun _ => .failWith ?_
    · refine .bind (hn _ _ _) ?_ fun thenBranch u d hy => ?_
      · intro d hy
        obtain ⟨us, y, m, hy⟩ := hy
        exact ⟨us ++ sample .elseWord :: [sample .numeral], _, _,
          by simpa using Derives.conditional hi ht rfl hx hy anything⟩
      obtain ⟨y, m, hy⟩ := hy
      refine .accept (by decide) (fun he => ?_) fun _ => .failWith ?_
      · refine .bind (hn _ _ _) ?_ fun elseBranch v f hz => ?_
        · intro f hz
          obtain ⟨us, z, k, hz⟩ := hz
          exact ⟨us, _, _, by simpa using Derives.conditional hi ht he hx hy hz⟩
        · obtain ⟨z, k, hz⟩ := hz
          exact .enter fun _ => ⟨_, _, by simpa using Derives.conditional hi ht he hx hy hz⟩
      · exact ⟨sample .elseWord :: [sample .numeral], _, _,
          by simpa using Derives.conditional hi ht rfl hx hy anything⟩
    · exact ⟨sample .thenWord :: sample .numeral :: sample .elseWord :: [sample .numeral], _, _,
        by simpa using Derives.conditional hi rfl rfl hx anything anything⟩
  · exact hc.loosen s

theorem faithful_apply (hl : ∀ c r, Local (nested c r)) (hn : ∀ c r, Faithful (nested c r) r)
    (r : Rule) : Faithful (apply nested r) r := by
  induction r using Rule.level_induction with
  | primary => exact faithful_primary hn
  | looser r above ih =>
    cases r with
    | primary => exact absurd rfl above
    | reference => exact faithful_reference hn
    | selection => exact faithful_selection hl hn
    | property => exact faithful_property hl hn
    | cast => exact faithful_cast hl hn
    | unary => exact faithful_unary hl hn
    | product | sum | conjunction | disjunction =>
      rw [apply_chain nested (by decide)]
      exact faithful_chain hl hn rfl ih
    | relation => exact faithful_relation hn ih
    | tuple => exact faithful_separated hl hn (r := .tuple) rfl _ ih
    | collection => exact faithful_separated hl hn (r := .collection) rfl _ ih
    | expression => exact faithful_expression hn ih

end rules

theorem Faithful.within {p : Parser NodeId} {r : Rule} (context : Context) (h : Faithful p r) :
    Faithful (within context p) r := by
  intro s
  unfold Sound Grammar.within
  cases hc : s.contexts.push? context with
  | none => exact .inl rfl
  | some contexts =>
    have := h { s with contexts := contexts }
    unfold Sound at this
    dsimp only
    cases hp : p { s with contexts := contexts } <;> rw [hp] at this <;> exact this

theorem faithful_nestedIn (room : Nat) (context : Context) (r : Rule) :
    Faithful (nestedIn room context r) r := by
  induction room generalizing context r with
  | zero => exact fun s => .inl rfl
  | succ room ih => exact .within context (faithful_apply (local_nestedIn room) ih r)

theorem faithful_run (r : Rule) : Faithful (run r) r := by
  intro s
  have := faithful_apply (local_nestedIn s.contexts.room) (faithful_nestedIn s.contexts.room) r s
  unfold Sound at this ⊢
  exact this

end InventoryQuery.Grammar
