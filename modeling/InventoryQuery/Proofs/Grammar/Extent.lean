import InventoryQuery.Proofs.Grammar.Acceptance
import InventoryQuery.Proofs.Grammar.Course
import InventoryQuery.Proofs.Token.Ordered

/-! The extent of a node. A node is made of a run of tokens and its span goes from the first of them to
the last; its parts are made of runs inside this run, one behind the other. So the spans of a tree are
nested as its nodes are. -/

namespace InventoryQuery

namespace Span

def Within (s r : Span) : Prop := r.start ≤ s.start ∧ s.stop ≤ r.stop

def Apart (s r : Span) : Prop := s.stop ≤ r.start ∨ r.stop ≤ s.start

def NestedOrApart (s r : Span) : Prop := s.Within r ∨ r.Within s ∨ s.Apart r

theorem Within.refl (s : Span) : s.Within s := ⟨Nat.le_refl _, Nat.le_refl _⟩

theorem Within.trans {s r q : Span} (h : s.Within r) (h' : r.Within q) : s.Within q :=
  ⟨Nat.le_trans h'.1 h.1, Nat.le_trans h.2 h'.2⟩

theorem Apart.symm {s r : Span} (h : s.Apart r) : r.Apart s := Or.symm h

theorem Apart.within {s r s' r' : Span} (h : s.Apart r) (hs : s'.Within s) (hr : r'.Within r) : s'.Apart r' :=
  h.imp (fun le => Nat.le_trans hs.2 (Nat.le_trans le hr.1)) fun le => Nat.le_trans hr.2 (Nat.le_trans le hs.1)

end Span

/-- The span goes from the start of the first token to the end of the last. -/
def Spans (run : List Token) (s : Span) : Prop :=
  ∃ first last, run.head? = some first ∧ run.getLast? = some last ∧ s = ⟨first.start, last.span.stop⟩

namespace Spans

variable {run ts : List Token} {s r : Span}

/-- Where the first token starts and where the last one ends is inside. -/
theorem bounds (ordered : run.Pairwise Token.Precedes) (h : Spans run s) :
    ∀ t ∈ run, s.start ≤ t.start ∧ t.span.stop ≤ s.stop := by
  obtain ⟨first, last, hf, hl, rfl⟩ := h
  have length (t : Token) : t.start ≤ t.span.stop := Nat.le_add_right _ _
  intro t ht
  constructor
  · cases run with
    | nil => cases hf
    | cons u run =>
      cases hf
      rcases List.mem_cons.1 ht with rfl | ht
      · exact Nat.le_refl _
      · exact Nat.le_trans (length first) ((List.pairwise_cons.1 ordered).1 t ht)
  · obtain ⟨front, rfl⟩ := List.getLast?_eq_some_iff.1 hl
    rcases List.mem_append.1 ht with ht | ht
    · have before := (List.pairwise_append.1 ordered).2.2 t ht last (by simp)
      exact Nat.le_trans before (length last)
    · rw [List.mem_singleton.1 ht]

theorem ends (h : Spans run s) : ∃ first ∈ run, ∃ last ∈ run, s = ⟨first.start, last.span.stop⟩ := by
  obtain ⟨first, last, hf, hl, rfl⟩ := h
  exact ⟨first, List.mem_of_head? hf, last, List.mem_of_getLast? hl, rfl⟩

/-- A run inside another has its span inside. -/
theorem within (ordered : ts.Pairwise Token.Precedes) (hs : Spans run s) (hr : Spans ts r)
    (inside : run ⊆ ts) : s.Within r := by
  obtain ⟨first, hf, last, hl, rfl⟩ := hs.ends
  exact ⟨(hr.bounds ordered first (inside hf)).1, (hr.bounds ordered last (inside hl)).2⟩

end Spans

/-- The nodes are made of runs of these tokens, one behind the other. -/
inductive Shares (nodes : Array Node) : List NodeId → List Token → Prop
  | nil : Shares nodes [] []
  | skip {ids : List NodeId} {t : Token} {ts : List Token} : Shares nodes ids ts → Shares nodes ids (t :: ts)
  | part {id : NodeId} {n : Node} {ids : List NodeId} {run ts : List Token} : nodes[id]? = some n →
    Spans run n.span → Shares nodes ids ts → Shares nodes (id :: ids) (run ++ ts)

/-- All nodes of the one table have the same numbers in the other. -/
def Extends (nodes nodes' : Array Node) : Prop := ∀ (id : NodeId) n, nodes[id]? = some n → nodes'[id]? = some n

theorem extends_push (nodes : Array Node) (n : Node) : Extends nodes (nodes.push n) := by
  intro id m hm
  obtain ⟨hid, rfl⟩ := Array.getElem?_eq_some_iff.1 hm
  rw [Array.getElem?_push_lt hid]

namespace Shares

variable {nodes nodes' : Array Node} {ids others : List NodeId} {ts us : List Token}

theorem append (h : Shares nodes ids ts) (h' : Shares nodes others us) :
    Shares nodes (ids ++ others) (ts ++ us) := by
  induction h with
  | nil => exact h'
  | skip _ ih => exact .skip ih
  | part hn hs _ ih =>
    rw [List.append_assoc]
    exact .part hn hs ih

theorem mono (more : Extends nodes nodes') (h : Shares nodes ids ts) : Shares nodes' ids ts := by
  induction h with
  | nil => exact .nil
  | skip _ ih => exact .skip ih
  | part hn hs _ ih => exact .part (more _ _ hn) hs ih

theorem of_mem (h : Shares nodes ids ts) {id : NodeId} (hid : id ∈ ids) :
    ∃ n run, nodes[id]? = some n ∧ Spans run n.span ∧ run ⊆ ts := by
  induction h with
  | nil => cases hid
  | skip _ ih =>
    obtain ⟨n, run, hn, spans, inside⟩ := ih hid
    exact ⟨n, run, hn, spans, List.subset_cons_of_subset _ inside⟩
  | part hn spans _ ih =>
    rcases List.mem_cons.1 hid with rfl | hid
    · exact ⟨_, _, hn, spans, List.subset_append_left _ _⟩
    · obtain ⟨n, run, hn, spans, inside⟩ := ih hid
      exact ⟨n, run, hn, spans, List.subset_append_of_subset_right _ inside⟩

theorem filled (h : Shares nodes ids ts) (hids : ids ≠ []) : ts ≠ [] := by
  obtain ⟨id, hid⟩ := List.exists_mem_of_ne_nil ids hids
  obtain ⟨n, run, -, spans, inside⟩ := h.of_mem hid
  obtain ⟨first, hf, -⟩ := spans.ends
  exact List.ne_nil_of_mem (inside hf)

/-- Of two nodes, the one that comes first ends before the other starts. -/
theorem apart (ordered : ts.Pairwise Token.Precedes) (h : Shares nodes ids ts) {a b : NodeId} (ha : a ∈ ids)
    (hb : b ∈ ids) (ne : a ≠ b) {n m : Node} (hn : nodes[a]? = some n) (hm : nodes[b]? = some m) :
    n.span.Apart m.span := by
  have front {run ts : List Token} {ids : List NodeId} {n m : Node} (ordered : (run ++ ts).Pairwise Token.Precedes)
      (spans : Spans run n.span) (later : Shares nodes ids ts) {b : NodeId} (hb : b ∈ ids)
      (hm : nodes[b]? = some m) : n.span.Apart m.span := by
    obtain ⟨m', run', hm', spans', inside⟩ := later.of_mem hb
    cases hm.symm.trans hm'
    obtain ⟨_, -, last, hl, hs⟩ := spans.ends
    obtain ⟨first, hf, _, -, hs'⟩ := spans'.ends
    rw [hs, hs']
    exact .inl ((List.pairwise_append.1 ordered).2.2 last hl first (inside hf))
  induction h with
  | nil => cases ha
  | skip _ ih => exact ih (List.pairwise_cons.1 ordered).2 ha hb
  | part hid spans later ih =>
    rcases List.mem_cons.1 ha with rfl | ha' <;> rcases List.mem_cons.1 hb with rfl | hb'
    · exact absurd rfl ne
    · cases hid.symm.trans hn
      exact front ordered spans later hb' hm
    · cases hid.symm.trans hm
      exact (front ordered spans later ha' hn).symm
    · exact ih (List.pairwise_append.1 ordered).2.1 ha' hb'

end Shares

/-- A node that is made of a run of these tokens, and its parts of runs inside it. -/
def Fits (nodes : Array Node) (ts : List Token) (n : Node) : Prop :=
  ∃ run parts, run <:+: ts ∧ Spans run n.span ∧ n.shape.children.Perm parts ∧ Shares nodes parts run

theorem Fits.mono {nodes nodes' : Array Node} {ts us : List Token} {n : Node} (more : Extends nodes nodes')
    (inside : ts <:+: us) (h : Fits nodes ts n) : Fits nodes' us n := by
  obtain ⟨run, parts, infix', spans, perm, shares⟩ := h
  exact ⟨run, parts, infix'.trans inside, spans, perm, shares.mono more⟩

namespace Grammar

/-- The tokens that are read, the open nodes that are made of them, and all that has been entered on
the way. -/
structure Taken (s : State) (ids : List NodeId) (t : State) (run : List Token) : Prop where
  between : Between s run t
  lastEnd : t.lastEnd = (run.getLast?.map (·.span.stop)).getD s.lastEnd
  keeps : Extends s.nodes t.nodes
  shares : Shares t.nodes ids run
  fits : ∀ (id : NodeId) n, t.nodes[id]? = some n → s.nodes[id]? = some n ∨ Fits t.nodes run n

namespace Taken

variable {s t u : State} {ids others : List NodeId} {run later : List Token}

theorem nothing : Taken s [] s [] := ⟨.nothing, rfl, fun _ _ h => h, .nil, fun _ _ h => .inl h⟩

theorem one (h : s.here.kind ≠ .endOfInput) : Taken s [] s.advanced [s.here] where
  between := .one h
  lastEnd := by rw [advanced_cons (rest_eq_here_cons h) h]; rfl
  keeps := by rw [s.nodes_advanced]; exact fun _ _ h => h
  shares := .skip .nil
  fits := by rw [s.nodes_advanced]; exact fun _ _ h => .inl h

theorem trans (h : Taken s ids t run) (h' : Taken t others u later) : Taken s (ids ++ others) u (run ++ later) where
  between := h.between.trans h'.between
  lastEnd := by
    rw [h'.lastEnd, h.lastEnd, List.getLast?_append]
    cases later.getLast? <;> rfl
  keeps := fun id n hn => h'.keeps id n (h.keeps id n hn)
  shares := (h.shares.mono h'.keeps).append h'.shares
  fits := fun id n hn => by
    rcases h'.fits id n hn with old | fits
    · exact (h.fits id n old).imp_right (.mono h'.keeps (List.prefix_append _ _).isInfix)
    · exact .inr (fits.mono (fun _ _ h => h) (List.suffix_append _ _).isInfix)

/-- From the first token to the last is from where the run starts to the last end. -/
theorem spans (h : Taken s ids t run) (ordered : s.rest.Pairwise Token.Precedes) (filled : run ≠ []) :
    Spans run ⟨s.here.start, max t.lastEnd s.here.start⟩ := by
  have all := h.between.1
  rw [all] at ordered
  cases run with
  | nil => exact absurd rfl filled
  | cons first tail =>
    obtain ⟨last, hl⟩ : ∃ last, (first :: tail).getLast? = some last := ⟨_, List.getLast?_eq_some_getLast filled⟩
    have spans : Spans (first :: tail) ⟨first.start, last.span.stop⟩ := ⟨first, last, rfl, hl, rfl⟩
    have inside := (spans.bounds (List.pairwise_append.1 ordered).1 first List.mem_cons_self).2
    have le : first.start ≤ last.span.stop := Nat.le_trans (Nat.le_add_right _ _) inside
    rw [here_cons all, h.lastEnd, hl, Option.map_some, Option.getD_some, Nat.max_eq_left le]
    exact spans

theorem entered {shape : Shape NodeId} (h : Taken s ids t run) (ordered : s.rest.Pairwise Token.Precedes)
    (filled : run ≠ []) (hp : shape.children.Perm ids) :
    Taken s [t.nodes.size] (t.entered shape s.here.start) run := by
  have more : Extends t.nodes (t.entered shape s.here.start).nodes := extends_push _ _
  have spans := h.spans ordered filled
  have new : (t.entered shape s.here.start).nodes[t.nodes.size]? =
      some ⟨shape, ⟨s.here.start, max t.lastEnd s.here.start⟩, none, false⟩ := Array.getElem?_push_size
  refine ⟨h.between, h.lastEnd, fun id n hn => more id n (h.keeps id n hn), ?_, fun id n hn => ?_⟩
  · have := Shares.part new spans .nil
    rwa [List.append_nil] at this
  · by_cases hid : id = t.nodes.size
    · subst hid
      cases new.symm.trans hn
      exact .inr ⟨run, ids, List.infix_refl run, spans, hp, h.shares.mono more⟩
    · have old : t.nodes[id]? = some n := by
        rw [← hn]
        exact (Array.getElem?_push.trans (if_neg hid)).symm
      exact (h.fits id n old).imp_right (.mono more (List.infix_refl run))

end Taken

/-- Every move takes a run of the tokens. -/
theorem Reads.taken {s t : State} {ids : List NodeId} (h : Reads s ids t)
    (ordered : s.rest.Pairwise Token.Precedes) : ∃ run, Taken s ids t run := by
  induction h with
  | nothing => exact ⟨[], .nothing⟩
  | append _ _ ih ih' =>
    obtain ⟨run, taken⟩ := ih ordered
    rw [taken.between.1] at ordered
    obtain ⟨later, taken'⟩ := ih' (List.pairwise_append.1 ordered).2.1
    exact ⟨_, taken.trans taken'⟩
  | link hk => exact ⟨_, .one (ne_endOfInput_of_isLink hk)⟩
  | leaf hs =>
    have one := Taken.one (ne_endOfInput_of_single? hs)
    exact ⟨_, one.entered ordered (by simp) (by rw [children_of_single? hs])⟩
  | @enclosed s t ids ho _ hc ih =>
    have opened := Taken.one (s := s) (by rw [ho]; nofun)
    have closes := Taken.one (s := t) (by rw [hc]; nofun)
    rw [opened.between.1] at ordered
    obtain ⟨run, inner⟩ := ih (List.pairwise_append.1 ordered).2.1
    have whole := (opened.trans inner).trans closes
    rw [List.nil_append, List.append_nil] at whole
    exact ⟨_, whole⟩
  | entered _ hids hp ih =>
    obtain ⟨run, taken⟩ := ih ordered
    exact ⟨run, taken.entered ordered (taken.shares.filled hids) hp⟩
  | within _ _ ih =>
    obtain ⟨run, taken⟩ := ih ordered
    exact ⟨run, taken.between, taken.lastEnd, taken.keeps, taken.shares, taken.fits⟩

/-- The root is made of all tokens before the end of the input. -/
theorem fits_of_parse {text : List Char} {t : Tree} (h : parse text = .ok t) :
    (∀ n ∈ t.nodes, Fits t.nodes (tokens text).dropLast n) ∧
      ∃ n, t.nodes[t.root]? = some n ∧ Spans (tokens text).dropLast n.span := by
  obtain ⟨s, nodes, made, rest⟩ := makes_of_parse h
  have ordered := ordered_tokens text
  obtain ⟨run, taken⟩ := made.reads.taken ordered
  have all : (tokens text).dropLast ++ [Token.endOf text] = run ++ [Token.endOf text] := by
    rw [← tokens_eq, ← rest]
    exact taken.between.1
  obtain rfl := List.append_cancel_right all
  obtain ⟨n, hn, span⟩ := Option.map_eq_some_iff.1 made.covers
  rw [← nodes]
  refine ⟨fun n hn => ?_, n, hn, ?_⟩
  · obtain ⟨id, hid⟩ := Array.getElem?_of_mem hn
    exact (taken.fits id n hid).resolve_left (by simp [State.initial])
  · rw [span]
    exact taken.spans ordered (taken.shares.filled (by simp))

end Grammar

namespace Tree

def spanOf (t : Tree) (id : NodeId) : Span := (t.nodes[id]?.map (·.span)).getD default

theorem spanOf_eq {t : Tree} {id : NodeId} {n : Node} (h : t.nodes[id]? = some n) : t.spanOf id = n.span := by
  rw [spanOf, h]
  rfl

/-- The spans go from the start of one of these tokens to the end of one, and are nested as the nodes
are. -/
structure Nests (t : Tree) (ts : List Token) : Prop where
  filled : ∀ id < t.size, (t.spanOf id).start < (t.spanOf id).stop
  ends : ∀ id < t.size, ∃ first ∈ ts, ∃ last ∈ ts, t.spanOf id = ⟨first.start, last.span.stop⟩
  within : ∀ id, ∀ child ∈ t.children id, (t.spanOf child).Within (t.spanOf id)
  apart : ∀ id, ∀ a ∈ t.children id, ∀ b ∈ t.children id, a ≠ b → (t.spanOf a).Apart (t.spanOf b)
  root : Spans ts (t.spanOf t.root)
  laminar : ∀ x < t.size, ∀ y < t.size, (t.spanOf x).NestedOrApart (t.spanOf y)

section fits

variable {t : Tree} {ts : List Token}

theorem exists_fits (fits : ∀ n ∈ t.nodes, Fits t.nodes ts n) {id : NodeId} (hid : id < t.size) :
    ∃ n, t.nodes[id]? = some n ∧ t.spanOf id = n.span ∧ Fits t.nodes ts n :=
  ⟨_, Array.getElem?_eq_getElem hid, spanOf_eq (Array.getElem?_eq_getElem hid), fits _ (Array.getElem_mem hid)⟩

theorem ends_of_fits (fits : ∀ n ∈ t.nodes, Fits t.nodes ts n) {id : NodeId} (hid : id < t.size) :
    ∃ first ∈ ts, ∃ last ∈ ts, t.spanOf id = ⟨first.start, last.span.stop⟩ := by
  obtain ⟨n, -, hs, run, -, inside, spans, -⟩ := exists_fits fits hid
  obtain ⟨first, hf, last, hl, span⟩ := spans.ends
  exact ⟨first, inside.subset hf, last, inside.subset hl, hs.trans span⟩

variable (ordered : ts.Pairwise Token.Precedes) (fits : ∀ n ∈ t.nodes, Fits t.nodes ts n)
include ordered fits

theorem filled_of_fits (sized : ∀ u ∈ ts, u.start < u.span.stop) {id : NodeId} (hid : id < t.size) :
    (t.spanOf id).start < (t.spanOf id).stop := by
  obtain ⟨n, -, hs, run, -, inside, spans, -⟩ := exists_fits fits hid
  obtain ⟨first, hf, -⟩ := spans.ends
  have bounds := spans.bounds (ordered.sublist inside.sublist) first hf
  have size := sized first (inside.subset hf)
  rw [hs]
  omega

theorem within_of_fits {id child : NodeId} (hc : child ∈ t.children id) :
    (t.spanOf child).Within (t.spanOf id) := by
  obtain ⟨n, hn, hs, run, parts, inside, spans, perm, shares⟩ := exists_fits fits (lt_size_of_mem_children hc)
  rw [children_eq hn] at hc
  obtain ⟨m, part, hm, spans', inside'⟩ := shares.of_mem (perm.mem_iff.1 hc)
  rw [hs, spanOf_eq hm]
  exact spans'.within (ordered.sublist inside.sublist) spans inside'

theorem apart_of_fits {id a b : NodeId} (ha : a ∈ t.children id) (hb : b ∈ t.children id) (ne : a ≠ b) :
    (t.spanOf a).Apart (t.spanOf b) := by
  obtain ⟨n, hn, -, run, parts, inside, -, perm, shares⟩ := exists_fits fits (lt_size_of_mem_children ha)
  rw [children_eq hn] at ha hb
  obtain ⟨m, -, hm, -⟩ := shares.of_mem (perm.mem_iff.1 ha)
  obtain ⟨m', -, hm', -⟩ := shares.of_mem (perm.mem_iff.1 hb)
  rw [spanOf_eq hm, spanOf_eq hm']
  exact shares.apart (ordered.sublist inside.sublist) (perm.mem_iff.1 ha) (perm.mem_iff.1 hb) ne hm hm'

/-- Two nodes of a subtree are one below the other, or they lie in two parts of one node. -/
theorem nestedOrApart_of_fits (h : Downward t.nodes) {id x y : NodeId} (hid : id < t.size)
    (hx : x ∈ t.preorderOf id) (hy : y ∈ t.preorderOf id) : (t.spanOf x).NestedOrApart (t.spanOf y) := by
  have below {p z : NodeId} (hp : p < t.size) (hz : z ∈ t.preorderOf p) : (t.spanOf z).Within (t.spanOf p) :=
    forall_mem_preorderOf h (p := fun z => (t.spanOf z).Within (t.spanOf p)) hp (.refl _)
      (fun q hq c hc => (within_of_fits ordered fits hc).trans hq) z hz
  induction id using Nat.strongRecOn with
  | ind id ih =>
    by_cases topX : x = id
    · exact .inr (.inl (topX ▸ below hid hy))
    by_cases topY : y = id
    · exact .inl (topY ▸ below hid hx)
    rw [preorderOf_eq h hid] at hx hy
    obtain ⟨a, ha, hx⟩ := List.mem_flatMap.1 ((List.mem_cons.1 hx).resolve_left topX)
    obtain ⟨b, hb, hy⟩ := List.mem_flatMap.1 ((List.mem_cons.1 hy).resolve_left topY)
    have small {c : NodeId} (hc : c ∈ t.children id) : c < t.size := Nat.lt_trans (h.lt hc) hid
    by_cases same : a = b
    · subst same
      exact ih a (h.lt ha) (small ha) hx hy
    · have apart := apart_of_fits ordered fits ha hb same
      exact .inr (.inr (apart.within (below (small ha) hx) (below (small hb) hy)))

end fits

end Tree

open Grammar

/-- The span of every node of an accepted text goes from the start of a token to the end of one. It has
the spans of the parts in it, which do not overlap. -/
theorem spans_nest {text : List Char} {t : Tree} (h : parse text = .ok t) : t.Nests (tokens text).dropLast := by
  have whole := whole_of_parse h
  have ordered : (tokens text).dropLast.Pairwise Token.Precedes :=
    (ordered_tokens text).sublist (List.dropLast_sublist _)
  obtain ⟨fits, root, hroot, spans⟩ := fits_of_parse h
  constructor
  case filled => exact fun id => Tree.filled_of_fits ordered fits start_lt_stop_of_mem_tokens
  case ends => exact fun id => Tree.ends_of_fits fits
  case within => exact fun id child => Tree.within_of_fits ordered fits
  case apart => exact fun id a ha b hb => Tree.apart_of_fits ordered fits ha hb
  case root => rwa [Tree.spanOf_eq hroot]
  case laminar =>
    intro x hx y hy
    exact Tree.nestedOrApart_of_fits ordered fits whole.downward whole.root_lt (whole.mem_preorder.2 hx)
      (whole.mem_preorder.2 hy)

/-- The receiver stands before the accessor, and the node for `it` starts where `$its` does. -/
theorem spans_nest_arrow :
    let text := "a -> b $whose ($its c)".toList
    let t : Tree := ⟨#[⟨.phrase "a" none, ⟨0, 1⟩, none, false⟩, ⟨.phrase "b" none, ⟨5, 6⟩, none, false⟩,
      ⟨.it, ⟨15, 19⟩, none, false⟩, ⟨.phrase "c" none, ⟨20, 21⟩, none, false⟩,
      ⟨.property 3 2, ⟨15, 21⟩, none, false⟩, ⟨.parens 4, ⟨14, 22⟩, none, false⟩,
      ⟨.whose 1 5, ⟨5, 22⟩, none, false⟩, ⟨.property 6 0, ⟨0, 22⟩, none, false⟩], 7⟩
    parse text = .ok t ∧ t.Nests (tokens text).dropLast := by
  intro text t
  have accepted : parse text = .ok t := by decide +kernel
  exact ⟨accepted, spans_nest accepted⟩

end InventoryQuery
