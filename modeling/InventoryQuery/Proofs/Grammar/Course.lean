import Mathlib.Data.List.Perm.Basic
import InventoryQuery.Grammar.Compile
import InventoryQuery.Proofs.Grammar.Derivation
import InventoryQuery.Proofs.Grammar.Locality
import InventoryQuery.Proofs.Token.Content

/-! The course of a run, apart from the rule that runs. A run that succeeds reads tokens and finishes
parts, one after the other, and then makes a node of them or goes on. A run that fails does the same
up to the token that it cannot read. All rules are walked through once, here: what every move keeps
is then known of every rule by induction on the moves. -/

namespace InventoryQuery

/-- The causes for which a rule refuses a token that it has looked at itself. -/
def Cause.isRefusal : Cause → Bool
  | nestedTooDeeply | missingOperand | chainedRelation | missingThen _ | missingElse _ | missingCastType _ => true
  | _ => false

namespace Grammar

variable {α β : Type}

/-- What is read between the parts of an expression: neither a parenthesis, nor what is an atom of the
tree, nor the end of the input. -/
def isLink : Kind → Bool
  | .leftParen | .rightParen | .string | .numeral | .itWord | .itsWord | .question | .endOfInput => false
  | _ => true

def single? (t : Token) : Option (Shape NodeId) :=
  match t.kind with
  | .string => some (.string (unquoted t.text))
  | .numeral => some (.number (String.ofList t.text))
  | .itWord | .itsWord => some .it
  | .question => some .marker
  | .phrase => some (.phrase (phraseName t.text) none)
  | _ => none

/-- From one state to another, the nodes in between are finished and belong to no other node yet. They
stand in the order of the text. -/
inductive Reads : State → List NodeId → State → Prop
  | nothing {s : State} : Reads s [] s
  | append {s t u : State} {ps qs : List NodeId} : Reads s ps t → Reads t qs u → Reads s (ps ++ qs) u
  | link {s : State} : isLink s.here.kind → Reads s [] s.advanced
  | leaf {s : State} {shape : Shape NodeId} : single? s.here = some shape →
    Reads s [s.advanced.nodes.size] (s.advanced.entered shape s.here.start)
  | enclosed {s t : State} {ps : List NodeId} : s.here.kind = .leftParen → Reads s.advanced ps t →
    t.here.kind = .rightParen → Reads s ps t.advanced
  | entered {s t : State} {ps : List NodeId} {shape : Shape NodeId} : Reads s ps t → ps ≠ [] →
    shape.children.Perm ps → Reads s [t.nodes.size] (t.entered shape s.here.start)
  | within {s t : State} {ps : List NodeId} {context : Context} {contexts : ContextStack} :
    s.contexts.push? context = some contexts → Reads { s with contexts := contexts } ps t →
    Reads s ps { t with contexts := t.contexts.pop }

/-- From one state to the other, at whose next token there is an error. -/
inductive Fails : State → SyntaxError → State → Prop
  | unexpected {s : State} : Fails s ⟨unexpected s, s.here.span⟩ s
  | refused {s : State} {cause : Cause} : cause.isRefusal → Fails s ⟨cause, s.here.span⟩ s
  | unclosed {s t : State} {ps : List NodeId} : s.here.kind = .leftParen → Reads s.advanced ps t →
    t.here.kind ≠ .rightParen → Fails s ⟨.unclosedParen t.here.kind s.here.span, t.here.span⟩ t
  | after {s t u : State} {ps : List NodeId} {e : SyntaxError} : Reads s ps t → Fails t e u → Fails s e u
  | enclosed {s t : State} {e : SyntaxError} : s.here.kind = .leftParen → Fails s.advanced e t → Fails s e t
  | within {s t : State} {e : SyntaxError} {context : Context} {contexts : ContextStack} :
    s.contexts.push? context = some contexts → Fails { s with contexts := contexts } e t →
    Fails s e { t with contexts := t.contexts.pop }

/-- The tokens that are read from one state to the other. -/
def Between (s : State) (ts : List Token) (t : State) : Prop :=
  s.rest = ts ++ t.rest ∧ ∀ x ∈ ts, x.kind ≠ .endOfInput

namespace Between

variable {s t u : State} {ts us : List Token}

theorem nothing : Between s [] s := ⟨rfl, by simp⟩

theorem one (h : s.here.kind ≠ .endOfInput) : Between s [s.here] s.advanced :=
  ⟨rest_eq_here_cons h, by simpa using h⟩

theorem trans (h : Between s ts t) (h' : Between t us u) : Between s (ts ++ us) u := by
  refine ⟨by rw [h.1, h'.1, List.append_assoc], fun x hx => ?_⟩
  rcases List.mem_append.1 hx with hx | hx
  · exact h.2 x hx
  · exact h'.2 x hx

end Between

theorem ne_endOfInput_of_isLink {k : Kind} (h : isLink k) : k ≠ .endOfInput := by
  rintro rfl
  cases h

theorem ne_endOfInput_of_single? {t : Token} {shape : Shape NodeId} (h : single? t = some shape) :
    t.kind ≠ .endOfInput := by
  intro last
  simp [single?, last] at h

theorem Reads.between {s t : State} {ids : List NodeId} (h : Reads s ids t) : ∃ ts, Between s ts t := by
  induction h with
  | nothing => exact ⟨[], .nothing⟩
  | append _ _ ih ih' =>
    obtain ⟨ts, first⟩ := ih
    obtain ⟨us, later⟩ := ih'
    exact ⟨_, first.trans later⟩
  | link hk => exact ⟨_, .one (ne_endOfInput_of_isLink hk)⟩
  | leaf hs => exact ⟨_, .one (ne_endOfInput_of_single? hs)⟩
  | enclosed ho _ hc ih =>
    obtain ⟨ts, inner⟩ := ih
    exact ⟨_, (Between.one (by rw [ho]; nofun)).trans (inner.trans (.one (by rw [hc]; nofun)))⟩
  | entered _ _ _ ih => exact ih
  | within _ _ ih => exact ih

namespace Fails

variable {s t : State} {e : SyntaxError}

theorem between (h : Fails s e t) : ∃ ts, Between s ts t := by
  induction h with
  | unexpected | refused => exact ⟨[], .nothing⟩
  | unclosed ho hr _ =>
    obtain ⟨ts, inner⟩ := hr.between
    exact ⟨_, (Between.one (by rw [ho]; nofun)).trans inner⟩
  | after hr _ ih =>
    obtain ⟨ts, first⟩ := hr.between
    obtain ⟨us, later⟩ := ih
    exact ⟨_, first.trans later⟩
  | enclosed ho _ ih =>
    obtain ⟨ts, inner⟩ := ih
    exact ⟨_, (Between.one (by rw [ho]; nofun)).trans inner⟩
  | within _ _ ih => exact ih

theorem span (h : Fails s e t) : e.span = t.here.span := by
  induction h with
  | unexpected | refused | unclosed => rfl
  | after _ _ ih | enclosed _ _ ih | within _ _ ih => exact ih

end Fails

theorem children_of_single? {t : Token} {shape : Shape NodeId} (h : single? t = some shape) :
    shape.children = [] := by
  unfold single? at h
  split at h <;> cases h <;> rfl

/-- The run from `s` succeeds as `post` says or fails as `fails` says. -/
def Yields (p : Parser α) (s : State) (post : α → State → Prop) (fails : SyntaxError → State → Prop) : Prop :=
  match p s with
  | .ok a t => post a t
  | .error e t => fails e t

namespace Yields

variable {s : State} {post : β → State → Prop} {fails : SyntaxError → State → Prop}

theorem imp {p : Parser β} {post' : β → State → Prop} {fails' : SyntaxError → State → Prop}
    (h : Yields p s post fails) (hp : ∀ b t, post b t → post' b t) (hf : ∀ e t, fails e t → fails' e t) :
    Yields p s post' fails' := by
  unfold Yields at *
  cases hr : p s with
  | ok b t => rw [hr] at h; exact hp b t h
  | error e t => rw [hr] at h; exact hf e t h

theorem pure {b : β} (h : post b s) : Yields (Pure.pure b) s post fails := h

theorem bind {p : Parser α} {q : α → Parser β} {middle : α → State → Prop} (hp : Yields p s middle fails)
    (hq : ∀ a t, middle a t → Yields (q a) t post fails) : Yields (p >>= q) s post fails := by
  unfold Yields at hp ⊢
  rw [bind_apply]
  cases hr : p s with
  | ok a t => rw [hr] at hp; exact hq a t hp
  | error e t => rw [hr] at hp; exact hp

theorem map {p : Parser α} {f : α → β} (h : Yields p s (fun a t => post (f a) t) fails) :
    Yields (f <$> p) s post fails :=
  bind (q := fun a => Pure.pure (f a)) h fun _ _ => pure

theorem peek {q : Token → Parser β} (h : Yields (q s.here) s post fails) : Yields (peek >>= q) s post fails := h

theorem advance {q : Unit → Parser β} (h : Yields (q ()) s.advanced post fails) :
    Yields (advance >>= q) s post fails := h

theorem accept {k : Kind} {q : Bool → Parser β} (yes : s.here.kind = k → Yields (q true) s.advanced post fails)
    (no : s.here.kind ≠ k → Yields (q false) s post fails) : Yields (accept k >>= q) s post fails := by
  unfold Yields at *
  by_cases h : s.here.kind = k
  · rw [accept_bind_of_eq h]
    exact yes h
  · rw [accept_bind_of_ne h]
    exact no h

theorem enter {shape : Shape NodeId} {start : Nat} {post : NodeId → State → Prop}
    (h : post s.nodes.size (s.entered shape start)) : Yields (enter shape start) s post fails := h

theorem enter_bind {shape : Shape NodeId} {start : Nat} {q : NodeId → Parser β}
    (h : Yields (q s.nodes.size) (s.entered shape start) post fails) :
    Yields (Grammar.enter shape start >>= q) s post fails := h

theorem failWith {cause : State → Cause} (h : fails ⟨cause s, s.here.span⟩ s) :
    Yields (failWith cause : Parser β) s post fails := h

/-- What holds before each step and is kept by it holds in the end. -/
theorem repeated {step : α → Parser (Option α)} {inv : α → State → Prop}
    (hs : ∀ a s, inv a s → Yields (step a) s (fun o t => inv (o.getD a) t) fails) {a : α} (h : inv a s) :
    Yields (repeated step a) s inv fails := by
  have steps (n : Nat) (a : α) (s : State) (h : inv a s) : Yields (iterate step n a) s inv fails := by
    induction n generalizing a s with
    | zero => exact pure h
    | succ n ih =>
      refine (hs a s h).bind fun o t ht => ?_
      match o with
      | none => exact pure ht
      | some b => exact ih b t ht
  exact steps _ a s h

end Yields

/-- One node is finished, and it covers all that has been read. -/
structure Makes (s : State) (id : NodeId) (t : State) : Prop where
  reads : Reads s [id] t
  covers : t.nodes[id]?.map (·.span) = some ⟨s.here.start, max t.lastEnd s.here.start⟩

def Runs (p : Parser NodeId) : Prop := ∀ s, Yields p s (Makes s) (Fails s)

theorem span_entered (s : State) (shape : Shape NodeId) (start : Nat) :
    (s.entered shape start).nodes[s.nodes.size]?.map (·.span) = some ⟨start, max s.lastEnd start⟩ := by
  simp [State.entered]

namespace Makes

variable {s t : State} {ps : List NodeId} {shape : Shape NodeId}

theorem leaf (h : single? s.here = some shape) :
    Makes s s.advanced.nodes.size (s.advanced.entered shape s.here.start) :=
  ⟨.leaf h, span_entered _ _ _⟩

theorem entered (h : Reads s ps t) (filled : ps ≠ []) (hp : shape.children.Perm ps) :
    Makes s t.nodes.size (t.entered shape s.here.start) :=
  ⟨.entered h filled hp, span_entered _ _ _⟩

end Makes

namespace Reads

variable {s t : State} {ps : List NodeId} {post : β → State → Prop}

theorem next (h : Reads s ps t) (hk : isLink t.here.kind) : Reads s ps t.advanced := by
  have := h.append (.link hk)
  rwa [List.append_nil] at this

/-- A part is read behind what has been read. -/
theorem part (h : Reads s ps t) {p : Parser NodeId} (hp : Runs p) {q : NodeId → Parser β}
    (hq : ∀ a u, Reads s (ps ++ [a]) u → Yields (q a) u post (Fails s)) :
    Yields (p >>= q) t post (Fails s) :=
  ((hp t).imp (fun _ _ made => h.append made.reads) fun _ _ => .after h).bind hq

theorem accept (h : Reads s ps t) {k : Kind} (hk : isLink k) {q : Bool → Parser β}
    (yes : Reads s ps t.advanced → Yields (q true) t.advanced post (Fails s))
    (no : Yields (q false) t post (Fails s)) : Yields (Grammar.accept k >>= q) t post (Fails s) :=
  .accept (fun same => yes (h.next (same ▸ hk))) fun _ => no

theorem refuse (h : Reads s ps t) {cause : State → Cause} (hc : ∀ u, (cause u).isRefusal) :
    Yields (failWith cause : Parser β) t post (Fails s) := .failWith (.after h (.refused (hc t)))

end Reads

section rules

variable {nested : Context → Rule → Parser NodeId} (hn : ∀ c r, Runs (nested c r))
include hn

theorem runs_primary : Runs (primary nested) := by
  intro s
  have leaf {shape : Shape NodeId} (h : single? s.here = some shape) :
      Yields (advance >>= fun _ => enter shape s.here.start) s (Makes s) (Fails s) :=
    .advance (.enter (.leaf h))
  refine .peek ?_
  split
  case h_1 opens =>
    have content := (hn .parenthesized .expression s.advanced).imp (fun _ _ => id) fun _ _ => Fails.enclosed opens
    refine .advance (content.bind fun content t made => .accept (fun closes => ?_) fun other => ?_)
    · exact .enter (.entered (.enclosed opens made.reads closes) (by simp) (.refl _))
    · exact .failWith (.unclosed opens made.reads other)
  case h_2 hk => exact leaf (by simp [single?, hk])
  case h_3 hk => exact leaf (by simp [single?, hk])
  case h_4 hk => exact leaf (by simp [single?, hk])
  case h_5 hk => exact leaf (by simp [single?, hk])
  case h_6 => exact .failWith .unexpected

theorem runs_reference : Runs (reference nested) := by
  intro s
  refine .peek ?_
  split
  case isTrue hp =>
    have name : Reads s [] s.advanced := .link (by rw [hp]; rfl)
    refine .advance (.peek ?_)
    split
    · have argument : Yields (some <$> nested .phraseArgument .primary) s.advanced
          (fun a t => ∃ id, a = some id ∧ Reads s [id] t) (Fails s) :=
        .map (((hn _ _ _).imp (fun id _ made => ⟨id, rfl, name.append made.reads⟩)) fun _ _ => .after name)
      refine argument.bind fun a t h => ?_
      obtain ⟨id, rfl, read⟩ := h
      exact .enter (.entered read (by simp) (.refl _))
    · exact .enter (.leaf (by simp [single?, hp]))
  case isFalse => exact runs_primary hn s

theorem runs_selection : Runs (selection nested) := by
  intro s
  refine .peek ((runs_reference hn s).bind fun source t made => .repeated (fun source t made => ?_) made)
  refine made.reads.accept rfl (fun read => ?_) (.pure made)
  exact read.part (hn _ _) fun filter u read => .map (.enter (.entered read (by simp) (.refl _)))

theorem runs_arrows {s t : State} {chosen : NodeId} (made : Makes s chosen t) :
    Yields (repeated (arrowStep nested s.here.start) chosen) t (Makes s) (Fails s) := by
  refine .repeated (fun source t made => ?_) made
  have existence {o : PrefixOperator} {u : State} (read : Reads s [source] u) (hk : isLink u.here.kind) :
      Yields (advance >>= fun _ => some <$> enter (.unary o source) s.here.start) u
        (fun o v => Makes s (o.getD source) v) (Fails s) :=
    .advance (.map (.enter (.entered (read.next hk) (by simp) (.refl _))))
  refine made.reads.accept rfl (fun read => .peek ?_) (.pure made)
  split
  case h_1 hk => exact existence read (by rw [hk]; rfl)
  case h_2 hk => exact existence read (by rw [hk]; rfl)
  case h_3 => exact read.part (hn _ _) fun accessor u read => .map (.enter (.entered read (by simp) (.swap _ _ _)))

theorem runs_property : Runs (property nested) := by
  intro s
  refine .peek (.accept (fun its => .enter_bind ?_) fun _ => ?_)
  · have it : Reads s [s.advanced.nodes.size] (s.advanced.entered .it s.here.start) :=
      .leaf (by simp [single?, its])
    refine it.part (hn _ _) fun accessor t read => .enter_bind (runs_arrows hn ?_)
    exact .entered read (by simp) (.swap _ _ _)
  · refine (runs_selection hn s).bind fun chosen t made =>
      made.reads.accept rfl (fun read => ?_) (runs_arrows hn made)
    exact read.part (hn _ _) fun source u read => .enter (.entered read (by simp) (.refl _))

theorem runs_cast : Runs (cast nested) := by
  intro s
  refine .peek ((runs_property hn s).bind fun source t made => .repeated (fun source t made => ?_) made)
  refine made.reads.accept rfl (fun read => .peek ?_) (.pure made)
  split
  case isTrue hp => exact .advance (.map (.enter (.entered (read.next (by rw [hp]; rfl)) (by simp) (.refl _))))
  case isFalse => exact read.refuse fun _ => rfl

theorem runs_operand (r : Rule) : Runs (operand nested r) := by
  intro s
  refine .peek ?_
  split
  · exact Reads.nothing.refuse fun _ => rfl
  · exact hn _ _ s

theorem runs_unary : Runs (unary nested) := by
  intro s
  refine .peek ?_
  split
  case h_1 o ho =>
    have operator : Reads s [] s.advanced := .link (by revert ho; cases s.here.kind <;> simp [prefixOf?, isLink])
    refine .advance (operator.part (runs_operand hn _) fun inner t read => ?_)
    exact .enter (.entered read (by simp) (.refl _))
  case h_2 => exact runs_cast hn s

theorem runs_chain (infixOf? : Kind → Option InfixOperator) (hk : ∀ k, (infixOf? k).isSome → isLink k)
    {first : Parser NodeId} (hf : Runs first) (right : Rule) : Runs (chain nested infixOf? first right) := by
  intro s
  refine .peek ((hf s).bind fun left t made => .repeated (fun left t made => .peek ?_) made)
  split
  case h_1 o ho =>
    refine .advance ((made.reads.next (hk _ (by rw [ho]; rfl))).part (runs_operand hn _) fun inner u read => ?_)
    exact .map (.enter (.entered read (by simp) (.refl _)))
  case h_2 => exact .pure made

theorem runs_relation (hs : Runs (sum nested)) : Runs (relation nested) := by
  intro s
  refine .peek ((hs s).bind fun left t made => .peek ?_)
  split
  case isTrue ho =>
    refine .advance ((made.reads.next (by rw [ho]; rfl)).part (runs_operand hn _) fun right u read => .peek ?_)
    split
    · exact read.refuse fun _ => rfl
    · exact .enter (.entered read (by simp) (.refl _))
  case isFalse => exact .pure made

theorem runs_separated (separator : Kind) (hk : isLink separator) (make : List NodeId → Shape NodeId)
    (hm : ∀ items, (make items).children = items) {first : Parser NodeId} (hf : Runs first) (item : Rule) :
    Runs (separated nested separator make first item) := by
  intro s
  refine .peek ((hf s).bind fun one t made => .peek ?_)
  split
  case isTrue =>
    have items : Yields (repeated (itemStep nested separator item) [one]) t
        (fun items u => items ≠ [] ∧ Reads s items u) (Fails s) := by
      refine .repeated (fun items u h => ?_) ⟨by simp, made.reads⟩
      refine h.2.accept hk (fun read => ?_) (.pure h)
      exact read.part (hn _ _) fun next v read => .pure ⟨by simp, read⟩
    exact items.bind fun items u h => .enter (.entered h.2 h.1 (by rw [hm]))
  case isFalse => exact .pure made

theorem runs_expression (hc : Runs (collection nested)) : Runs (expression nested) := by
  intro s
  refine .peek ?_
  split
  case isTrue hi =>
    have opened : Reads s [] s.advanced := .link (by rw [hi]; rfl)
    refine .advance (opened.part (hn _ _) fun condition t read => ?_)
    refine read.accept rfl (fun read => ?_) (read.refuse fun _ => rfl)
    refine read.part (hn _ _) fun thenBranch u read => ?_
    refine read.accept rfl (fun read => ?_) (read.refuse fun _ => rfl)
    exact read.part (hn _ _) fun elseBranch v read => .enter (.entered read (by simp) (.refl _))
  case isFalse => exact hc s

theorem runs_apply (r : Rule) : Runs (apply nested r) := by
  induction r using Rule.level_induction with
  | primary => exact runs_primary hn
  | looser r above ih =>
    cases r with
    | primary => exact absurd rfl above
    | reference => exact runs_reference hn
    | selection => exact runs_selection hn
    | property => exact runs_property hn
    | cast => exact runs_cast hn
    | unary => exact runs_unary hn
    | product | sum | conjunction | disjunction => exact runs_chain hn _ (fun k => by cases k <;> decide) ih _
    | relation => exact runs_relation hn ih
    | tuple | collection => exact runs_separated hn _ rfl _ (fun _ => rfl) ih _
    | expression => exact runs_expression hn ih

end rules

theorem Runs.within {p : Parser NodeId} (context : Context) (h : Runs p) : Runs (within context p) := by
  intro s
  unfold Yields Grammar.within
  cases hc : s.contexts.push? context with
  | none => exact Fails.refused rfl
  | some contexts =>
    have inner := h { s with contexts := contexts }
    unfold Yields at inner
    dsimp only
    cases hp : p { s with contexts := contexts } with
    | ok a t => rw [hp] at inner; exact ⟨.within hc inner.reads, inner.covers⟩
    | error e t => rw [hp] at inner; exact .within hc inner

theorem runs_nestedIn (room : Nat) (context : Context) (r : Rule) : Runs (nestedIn room context r) := by
  induction room generalizing context r with
  | zero => exact fun s => .failWith (.refused rfl)
  | succ room ih => exact .within context (runs_apply ih r)

theorem runs_run (r : Rule) : Runs (run r) := by
  intro s
  have known := runs_apply (runs_nestedIn s.contexts.room) r s
  unfold Yields at known ⊢
  exact known

theorem yields_whole (s : State) :
    Yields whole s (fun root t => Makes s root t ∧ t.here.kind = .endOfInput) (Fails s) := by
  refine (runs_run .expression s).bind fun root t made => .peek ?_
  split
  case isTrue last => exact .pure ⟨made, last⟩
  case isFalse => exact .failWith (.after made.reads .unexpected)

end Grammar

open Grammar

/-- Every tree comes from a run that makes its root. -/
theorem makes_of_parseTokens {ts : List Token} {t : Tree} (h : parseTokens ts = .ok t) :
    ∃ s, s.nodes = t.nodes ∧ Makes (.initial ts) t.root s ∧ s.here.kind = .endOfInput := by
  have known := yields_whole (.initial ts)
  unfold parseTokens at h
  unfold Yields at known
  split at h
  case h_1 => cases h
  case h_2 root s hw =>
    rw [hw] at known
    split at h
    · cases h
    · cases h
      exact ⟨s, rfl, known⟩

/-- Every error but the one for a tree that is too high comes from a run that fails. -/
theorem fails_of_parseTokens {ts : List Token} {e : SyntaxError} (h : parseTokens ts = .error e)
    (hc : e.code ≠ .nestedTooDeeply) : ∃ s, Fails (.initial ts) e s := by
  have known := yields_whole (.initial ts)
  unfold parseTokens at h
  unfold Yields at known
  split at h
  case h_1 e' s hw =>
    rw [hw] at known
    cases h
    exact ⟨s, known⟩
  case h_2 =>
    split at h
    · cases h
      exact absurd rfl hc
    · cases h

/-- All tokens before the end of the input are read to make the root. -/
theorem makes_of_parse {text : List Char} {t : Tree} (h : parse text = .ok t) :
    ∃ s, s.nodes = t.nodes ∧ Makes (.initial (tokens text)) t.root s ∧ s.rest = [Token.endOf text] := by
  obtain ⟨s, nodes, made, last⟩ := makes_of_parseTokens h
  obtain ⟨ts, all, inner⟩ := made.reads.between
  have split : (tokens text).dropLast ++ [Token.endOf text] = ts ++ s.rest := (tokens_eq text).symm.trans all
  rw [here_kind] at last
  exact ⟨s, nodes, made, (append_eof_inj split rfl (fun _ => kind_ne_endOfInput) inner last).2⟩

end InventoryQuery
