import InventoryQuery.Proofs.Keyword.Joining
import InventoryQuery.Proofs.Layout.Respaced

/-! Rewriting texts that differ in blanks. A phrase is found in both or in neither, whatever the gaps
between its words are, and which of two phrases is longer is settled by their words. So the rewritten
texts differ in blanks again, and an article that is put in leaves nothing but a blank. -/

namespace InventoryQuery

namespace Rewrite

def Solid (r : Rewrite) : Prop := ∀ w ∈ r.words, ∀ c ∈ w, Inner c

instance (r : Rewrite) : Decidable r.Solid :=
  decidable_of_iff (r.words.all (·.all (decide <| Inner ·)))
    (by simp only [List.all_eq_true, decide_eq_true_eq, Solid])

theorem solid_dropArticles : ∀ r ∈ dropArticles, r.Solid := by decide +kernel

theorem solid_writeKeywords : ∀ r ∈ writeKeywords, r.Solid := by decide +kernel

theorem reach?_singleton_iff {w cs : List Char} {n : Nat} :
    reach? [w] cs = some n ↔ ∃ rest, cs = w ++ rest ∧ rest.head?.all isBoundary ∧ n = w.length := by
  simp only [reach?, Option.bind_eq_bind, Option.bind_eq_some_iff,
    List.isPrefixOf?_eq_some_iff_append_eq, Option.ite_none_right_eq_some, Option.some.injEq]
  exact exists_congr fun rest => and_congr eq_comm (and_congr_right fun _ => eq_comm)

theorem reach?_cons_cons_iff {w v : List Char} {ws : List (List Char)} {cs : List Char} {n : Nat} :
    reach? (w :: v :: ws) cs = some n ↔ ∃ rest k, cs = w ++ rest ∧ rest.takeWhile isBlank ≠ [] ∧
      reach? (v :: ws) (rest.dropWhile isBlank) = some k ∧
      n = w.length + (rest.takeWhile isBlank).length + k := by
  rw [reach?_cons_cons, Option.bind_eq_some_iff]
  refine exists_congr fun rest => ?_
  rw [List.isPrefixOf?_eq_some_iff_append_eq]
  by_cases gap : rest.takeWhile isBlank = []
  · simp [gap]
  · rw [if_neg gap, Option.map_eq_some_iff]
    constructor
    · rintro ⟨rfl, k, hk, rfl⟩
      exact ⟨k, rfl, gap, hk, rfl⟩
    · rintro ⟨k, rfl, -, hk, rfl⟩
      exact ⟨rfl, k, hk, rfl⟩

theorem drop_gap (w rest : List Char) (k : Nat) :
    (w ++ rest).drop (w.length + (rest.takeWhile isBlank).length + k) =
      (rest.dropWhile isBlank).drop k := by
  rw [← drop_takeWhile, List.drop_drop, Nat.add_assoc, List.drop_length_add_append]

/-- A phrase ends at a boundary or with the text. -/
theorem boundary_of_reach? {ws : List (List Char)} (hne : ws ≠ []) {cs : List Char} {n : Nat}
    (h : reach? ws cs = some n) : (cs.drop n).head?.all isBoundary := by
  induction ws generalizing cs n with
  | nil => exact absurd rfl hne
  | cons w ws ih =>
    cases ws with
    | nil =>
      obtain ⟨rest, rfl, stop, rfl⟩ := reach?_singleton_iff.1 h
      rwa [List.drop_left]
    | cons v ws =>
      obtain ⟨rest, k, rfl, -, hk, rfl⟩ := reach?_cons_cons_iff.1 h
      rw [drop_gap]
      exact ih (by simp) hk

/-- Two words at the same place that both end at a boundary are the same word. -/
theorem word_unique {w v rest rest' : List Char} (hw : ∀ c ∈ w, Inner c) (hv : ∀ c ∈ v, Inner c)
    (hr : rest.head?.all isBoundary) (hr' : rest'.head?.all isBoundary)
    (h : w ++ rest = v ++ rest') : w = v ∧ rest = rest' := by
  have stops {xs : List Char} (hx : xs.head?.all isBoundary) :
      ∀ c ∈ xs.head?, ¬ (!isBoundary c) := by
    intro c hc
    rw [Option.mem_def.1 hc] at hx
    simpa using hx
  exact run_append_inj (p := (!isBoundary ·)) (fun c hc => by simp [(hw c hc).1])
    (fun c hc => by simp [(hv c hc).1]) (stops hr) (stops hr') h

theorem boundary_of_gap {rest : List Char} (h : rest.takeWhile isBlank ≠ []) :
    rest.head?.all isBoundary := by
  cases rest with
  | nil => rfl
  | cons c rest =>
    by_cases hc : isBlank c
    · exact isBoundary_of_isBlank hc
    · exact absurd (List.takeWhile_cons_of_neg hc) h

/-- Of two phrases at the same place, the one that takes no more begins the other. -/
theorem reach?_le_iff {ws vs : List (List Char)} (hw : ∀ w ∈ ws, ∀ c ∈ w, Inner c)
    (hv : ∀ v ∈ vs, ∀ c ∈ v, Inner c) (hws : ws ≠ []) (hvs : vs ≠ []) {cs : List Char} {n m : Nat}
    (hn : reach? ws cs = some n) (hm : reach? vs cs = some m) : n ≤ m ↔ ws <+: vs := by
  induction ws generalizing vs cs n m with
  | nil => exact absurd rfl hws
  | cons w ws ih =>
    obtain ⟨first, others⟩ := List.forall_mem_cons.1 hw
    cases vs with
    | nil => exact absurd rfl hvs
    | cons v vs =>
      obtain ⟨first', others'⟩ := List.forall_mem_cons.1 hv
      cases ws with
      | nil =>
        obtain ⟨rest, rfl, stop, rfl⟩ := reach?_singleton_iff.1 hn
        cases vs with
        | nil =>
          obtain ⟨rest', same, stop', rfl⟩ := reach?_singleton_iff.1 hm
          obtain ⟨rfl, rfl⟩ := word_unique first first' stop stop' same
          simp
        | cons x vs =>
          obtain ⟨rest', k, same, gap, -, rfl⟩ := reach?_cons_cons_iff.1 hm
          obtain ⟨rfl, rfl⟩ := word_unique first first' stop (boundary_of_gap gap) same
          simp only [List.cons_prefix_cons, List.nil_prefix, and_self, iff_true]
          omega
      | cons y ws =>
        obtain ⟨rest, k, rfl, gap, hk, rfl⟩ := reach?_cons_cons_iff.1 hn
        cases vs with
        | nil =>
          obtain ⟨rest', same, stop', rfl⟩ := reach?_singleton_iff.1 hm
          obtain ⟨rfl, rfl⟩ := word_unique first first' (boundary_of_gap gap) stop' same
          have := List.length_pos_iff.2 gap
          simp only [List.cons_prefix_cons, List.prefix_nil, reduceCtorEq, and_false, iff_false]
          omega
        | cons x vs =>
          obtain ⟨rest', l, same, gap', hl, rfl⟩ := reach?_cons_cons_iff.1 hm
          obtain ⟨rfl, rfl⟩ := word_unique first first' (boundary_of_gap gap) (boundary_of_gap gap') same
          rw [List.cons_prefix_cons, ← ih others others' (by simp) (by simp) hk hl]
          simp

end Rewrite

namespace Respaced

variable {cs ds : List Char}

theorem boundary_iff (h : Respaced false false cs ds) :
    cs.head?.all isBoundary = ds.head?.all isBoundary := by
  cases h with
  | nil => rfl
  | char => rfl
  | blank hc hd => exact (isBoundary_of_isSpace hc).trans (isBoundary_of_isSpace hd).symm

theorem gap_iff (h : Respaced false false cs ds) :
    cs.takeWhile isBlank = [] ↔ ds.takeWhile isBlank = [] := by
  cases h with
  | nil => rfl
  | char c => by_cases hc : isBlank c <;> simp [hc]
  | blank hc hd => simp [isBlank_of_isSpace hc, isBlank_of_isSpace hd]

end Respaced

namespace Rewrite

theorem reach?_respaced {ws : List (List Char)} (hne : ws ≠ []) (hw : ∀ w ∈ ws, ∀ c ∈ w, Inner c)
    {cs ds : List Char} (h : Respaced false false cs ds) {n : Nat} (hn : reach? ws cs = some n) :
    ∃ m, reach? ws ds = some m ∧ Respaced false false (cs.drop n) (ds.drop m) := by
  induction ws generalizing cs ds n with
  | nil => exact absurd rfl hne
  | cons w ws ih =>
    obtain ⟨first, hw⟩ := List.forall_mem_cons.1 hw
    cases ws with
    | nil =>
      obtain ⟨rest, rfl, stop, rfl⟩ := reach?_singleton_iff.1 hn
      obtain ⟨rest', rfl, later⟩ := h.word first
      refine ⟨w.length, reach?_singleton_iff.2 ⟨rest', rfl, ?_, rfl⟩, ?_⟩
      · rwa [← later.boundary_iff]
      · rwa [List.drop_left, List.drop_left]
    | cons v ws =>
      obtain ⟨rest, k, rfl, gap, hk, rfl⟩ := reach?_cons_cons_iff.1 hn
      obtain ⟨rest', rfl, later⟩ := h.word first
      obtain ⟨l, hl, beyond⟩ :=
        ih (by simp) hw (later.dropWhile (fun _ => isBlank_of_isSpace) rfl) hk
      refine ⟨_, reach?_cons_cons_iff.2 ⟨rest', l, rfl, mt later.gap_iff.2 gap, hl, rfl⟩, ?_⟩
      rwa [drop_gap, drop_gap]

section rules

variable {rules : List Rewrite} (hp : ∀ r ∈ rules, r.Plain) (hs : ∀ r ∈ rules, r.Solid)
  {cs ds : List Char}

/-- The best rewrites so far at two places: the same rule, or none. -/
def SameRule (rules : List Rewrite) (cs ds : List Char) : Option (Rewrite × Nat) → Option (Rewrite × Nat) → Prop
  | none, none => True
  | some (r, n), some (q, m) => r = q ∧ r ∈ rules ∧ reach? r.words cs = some n ∧ reach? r.words ds = some m
  | _, _ => False

include hp hs

theorem sameRule_longer (h : Respaced false false cs ds) {best best' : Option (Rewrite × Nat)}
    (hb : SameRule rules cs ds best best') {r : Rewrite} (hr : r ∈ rules) :
    SameRule rules cs ds (longer cs best r) (longer ds best' r) := by
  unfold longer
  cases hn : reach? r.words cs with
  | none =>
    cases hm : reach? r.words ds with
    | none => exact hb
    | some m =>
      obtain ⟨n, found, -⟩ := reach?_respaced (hp r hr).1 (hs r hr) h.symm hm
      rw [hn] at found
      cases found
  | some n =>
    obtain ⟨m, hm, -⟩ := reach?_respaced (hp r hr).1 (hs r hr) h hn
    rw [hm]
    dsimp only
    cases best with
    | none =>
      cases best' with
      | none => exact ⟨rfl, hr, hn, hm⟩
      | some _ => exact hb.elim
    | some b =>
      cases best' with
      | none => exact hb.elim
      | some b' =>
        obtain ⟨q, k⟩ := b
        obtain ⟨q', l⟩ := b'
        obtain ⟨rfl, hq, hk, hl⟩ := hb
        have order : k ≤ n ↔ l ≤ m := by
          rw [reach?_le_iff (hs q hq) (hs r hr) (hp q hq).1 (hp r hr).1 hk hn,
            reach?_le_iff (hs q hq) (hs r hr) (hp q hq).1 (hp r hr).1 hl hm]
        by_cases shorter : k ≤ n
        · simp only [Option.all_some, decide_eq_true_eq, if_pos shorter, if_pos (order.1 shorter)]
          exact ⟨rfl, hr, hn, hm⟩
        · simp only [Option.all_some, decide_eq_true_eq, if_neg shorter, if_neg (mt order.2 shorter)]
          exact ⟨rfl, hq, hk, hl⟩

theorem sameRule_longest? (h : Respaced false false cs ds) :
    SameRule rules cs ds (longest? rules cs) (longest? rules ds) := by
  have fold (rs : List Rewrite) (hr : ∀ r ∈ rs, r ∈ rules) (best best' : Option (Rewrite × Nat))
      (hb : SameRule rules cs ds best best') :
      SameRule rules cs ds (rs.foldl (longer cs) best) (rs.foldl (longer ds) best') := by
    induction rs generalizing best best' with
    | nil => exact hb
    | cons r rs ih =>
      obtain ⟨first, hr⟩ := List.forall_mem_cons.1 hr
      exact ih hr _ _ (sameRule_longer hp hs h hb first)
  exact fold rules (fun _ => id) none none trivial

/-- In both texts the same rule applies, or none does. -/
theorem longest?_respaced (h : Respaced false false cs ds) :
    (longest? rules cs = none ∧ longest? rules ds = none) ∨
      ∃ r ∈ rules, ∃ n m, longest? rules cs = some (r, n) ∧ longest? rules ds = some (r, m) ∧
        Respaced false false (cs.drop n) (ds.drop m) := by
  have same := sameRule_longest? hp hs h
  cases hc : longest? rules cs with
  | none =>
    cases hd : longest? rules ds with
    | none => exact .inl ⟨rfl, rfl⟩
    | some _ => rw [hc, hd] at same; exact same.elim
  | some b =>
    cases hd : longest? rules ds with
    | none => rw [hc, hd] at same; exact same.elim
    | some b' =>
      rw [hc, hd] at same
      obtain ⟨r, n⟩ := b
      obtain ⟨q, m⟩ := b'
      obtain ⟨rfl, hr, hn, hm⟩ := same
      obtain ⟨m', hm', rest⟩ := reach?_respaced (hp r hr).1 (hs r hr) h hn
      cases hm.symm.trans hm'
      exact .inr ⟨r, hr, n, m, rfl, rfl, rest⟩

/-- No phrase starts with a boundary. -/
theorem longest?_boundary {b : Char} (hb : isBoundary b) (q : List Char) : longest? rules (b :: q) = none := by
  refine longest?_eq_none_iff.2 fun r hr => (hp r hr).reach?_of_not_mem (fun w hw mem => ?_) q
  have inner := (hs r hr w hw b mem).1
  rw [hb] at inner
  cases inner

theorem applyFrom_boundary {b : Char} (hb : isBoundary b) (inString fresh : Bool) (q : List Char) :
    applyFrom rules 0 inString fresh (b :: q) = b :: applyFrom rules 0 inString true q := by
  rw [applyFrom_copied fun _ _ => longest?_boundary hp hs hb q, hb,
    beq_eq_false_iff_ne.2 (ne_quote_of_isBoundary hb), Bool.xor_false]

omit hs in
theorem Takes.stop {r : Rewrite} {w rest : List Char} (h : Takes rules r w rest) : rest.head?.all isBoundary := by
  have stop := boundary_of_reach? (hp r h.mem).1 (longest?_mem h.found).2
  rwa [List.drop_left] at stop

/-- The pass goes on behind the phrase as it does within a word, since a boundary follows. -/
theorem applyFrom_replaced {r : Rewrite} {w rest : List Char} (h : Takes rules r w rest) :
    applyFrom rules 0 false true (w ++ rest) = r.output ++ applyFrom rules 0 false false rest := by
  have stop := h.stop hp
  rw [h.applyFrom_eq]
  cases rest with
  | nil => rfl
  | cons b rest => rw [applyFrom_boundary hp hs stop, applyFrom_boundary hp hs stop]

omit hp hs in
/-- Within quotes that are never closed nothing is rewritten. -/
theorem applyFrom_unclosed (hc : '"' ∉ cs) (fresh : Bool) : applyFrom rules 0 true fresh cs = cs := by
  have copied : applyFrom rules 0 true fresh (cs ++ []) = cs ++ [] := applyFrom_quoted hc fresh []
  rwa [List.append_nil] at copied

theorem applyFrom_respaced {inString fresh : Bool} (h : Respaced inString fresh cs ds) :
    Respaced inString fresh (applyFrom rules 0 inString fresh cs)
      (applyFrom rules 0 inString fresh ds) := by
  induction hl : cs.length + ds.length using Nat.strongRecOn generalizing cs ds inString fresh with
  | ind l ih =>
    cases h with
    | nil => exact .nil
    | @char _ _ cs ds c h =>
      have kept : Respaced inString fresh
          (c :: applyFrom rules 0 (inString ^^ (c == '"')) (isBoundary c) cs)
          (c :: applyFrom rules 0 (inString ^^ (c == '"')) (isBoundary c) ds) :=
        .char c (ih _ (by simp only [← hl, List.length_cons]; omega) h rfl)
      cases inString with
      | true => exact kept
      | false =>
        cases fresh with
        | false => exact kept
        | true =>
          rcases longest?_respaced hp hs (.char c h : Respaced false false (c :: cs) (c :: ds)) with
            ⟨hc, hd⟩ | ⟨r, hr, n, m, hc, hd, rest⟩
          · rw [applyFrom, applyFrom, hc, hd]
            exact kept
          · obtain ⟨x, xs, hx, rfl, left⟩ := Takes.of_longest? hp hc
            obtain ⟨y, ys, hy, rfl, right⟩ := Takes.of_longest? hp hd
            rw [hx, hy, List.drop_left, List.drop_left] at rest
            rw [hx, hy, applyFrom_replaced hp hs left, applyFrom_replaced hp hs right]
            refine .prepend r.output ?_
            rw [quoteOpen_of_not_mem (hp r hr).2.2]
            refine (ih _ ?_ rest rfl).weaken _
            have := List.length_pos_iff.2 left.filled
            rw [← hl, hx, hy, List.length_append, List.length_append]
            omega
    | @blank _ c d cs ds hc hd h =>
      rw [applyFrom_boundary hp hs (isBoundary_of_isSpace hc),
        applyFrom_boundary hp hs (isBoundary_of_isSpace hd)]
      exact .blank hc hd (ih _ (by simp only [← hl, List.length_cons]; omega) h rfl)
    | @left c cs _ hc h =>
      rw [applyFrom_boundary hp hs (isBoundary_of_isSpace hc)]
      exact .left hc (ih _ (by simp only [← hl, List.length_cons]; omega) h rfl)
    | @right d _ ds hd h =>
      rw [applyFrom_boundary hp hs (isBoundary_of_isSpace hd)]
      exact .right hd (ih _ (by simp only [← hl, List.length_cons]; omega) h rfl)
    | unclosed hc hd =>
      rw [applyFrom_unclosed hc, applyFrom_unclosed hd]
      exact .unclosed hc hd

end rules

end Rewrite

open Rewrite Lexeme

theorem rewriteKeywords_respaced {cs ds : List Char} (h : Respaced false true cs ds) :
    Respaced false true (rewriteKeywords cs) (rewriteKeywords ds) :=
  applyFrom_respaced plain_writeKeywords solid_writeKeywords
    (applyFrom_respaced plain_dropArticles solid_dropArticles h)

namespace Rewrite

/-- A boundary ends a word just as the end of the text does. -/
theorem reach?_append_boundary {b : Char} (hb : isBoundary b) {w : List Char} (hw : ∀ c ∈ w, Inner c)
    (cs q : List Char) : reach? [w] (cs ++ b :: q) = reach? [w] cs := by
  have outside : b ∉ w := fun mem => by
    have := (hw b mem).1
    rw [hb] at this
    cases this
  simp only [reach?, isPrefixOf?_append_of_not_mem outside, Option.bind_eq_bind, Option.bind_map]
  refine congrArg _ (funext fun rest => ?_)
  cases rest with
  | nil => simp [hb]
  | cons c rest => rfl

theorem dropArticles_append_boundary {b : Char} (hb : isBoundary b) (cs q : List Char) :
    applyAll dropArticles (cs ++ b :: q) =
      applyAll dropArticles cs ++ b :: applyFrom dropArticles 0 (quoteOpen false cs) true q := by
  have single : ∀ r ∈ dropArticles, r.words = [['a']] ∨ r.words = [['a', 'n']] := by decide
  have found : ∀ r ∈ dropArticles, ∀ s, s <:+ cs → s ≠ [] →
      reach? r.words (s ++ b :: q) = reach? r.words s := by
    intro r hr s _ _
    obtain ⟨w, hw⟩ : ∃ w, r.words = [w] := (single r hr).elim (fun h => ⟨_, h⟩) fun h => ⟨_, h⟩
    rw [hw]
    exact reach?_append_boundary hb (solid_dropArticles r hr w (by rw [hw]; exact List.mem_cons_self)) s q
  rw [applyAll, applyFrom_append_of_same plain_dropArticles false true cs found,
    applyFrom_boundary plain_dropArticles solid_dropArticles hb]
  rfl

/-- Where a boundary comes before it, or nothing, a text is rewritten by itself. -/
theorem dropArticles_append {pre : List Char} (h : freshAfter true pre) : ∃ dropped,
    freshAfter true dropped = true ∧ quoteOpen false dropped = quoteOpen false pre ∧
    ∀ post, applyAll dropArticles (pre ++ post) =
      dropped ++ applyFrom dropArticles 0 (quoteOpen false pre) true post := by
  cases pre using List.reverseRecOn with
  | nil => exact ⟨[], rfl, rfl, fun _ => rfl⟩
  | append_singleton pre b =>
    rw [freshAfter_append_singleton] at h
    have quote : '"' ∉ [b] := by simpa using Ne.symm (ne_quote_of_isBoundary h)
    have state (cs : List Char) : quoteOpen false (cs ++ [b]) = quoteOpen false cs := by
      rw [quoteOpen_append, quoteOpen_of_not_mem quote]
    refine ⟨applyAll dropArticles pre ++ [b], (freshAfter_append_singleton ..).trans h, ?_, fun post => ?_⟩
    · rw [state, state, applyAll, quoteOpen_applyFrom plain_dropArticles]
    · rw [state, List.append_assoc, List.append_assoc, List.singleton_append, List.singleton_append]
      exact dropArticles_append_boundary h pre post

theorem dropArticles_article {article : List Char} (h : article ∈ ["a".toList, "an".toList])
    (post : List Char) : applyFrom dropArticles 0 false true (article ++ ' ' :: post) =
      ' ' :: applyFrom dropArticles 0 false true post := by
  have blank := applyFrom_boundary plain_dropArticles solid_dropArticles (b := ' ') (by decide) false
    false post
  rw [← blank]
  rcases List.mem_pair.1 h with rfl | rfl <;> rfl

end Rewrite

/-- What comes between is not within double quotes: the quotes before it are closed, or there are none
after it. -/
def Outside (pre post : List Char) : Prop := quoteOpen false pre = false ∨ '"' ∉ post

def Blanks (run : List Char) : Prop := run ≠ [] ∧ ∀ c ∈ run, c ∈ [' ', '\t', '\r', '\n', '\x0c']

/-- One change of the layout: a run of blanks is exchanged for another one, or an article is put in at
the start of the text or behind a blank or a parenthesis, both outside double quotes. -/
inductive Relaid : List Char → List Char → Prop
  | blanks (pre run run' post : List Char) : Blanks run → Blanks run' → Outside pre post →
    Relaid (pre ++ run ++ post) (pre ++ run' ++ post)
  | article (pre article post : List Char) : article ∈ ["a".toList, "an".toList] →
    (∀ b ∈ pre.getLast?, isBlank b ∨ b = '(' ∨ b = ')') → Outside pre post →
    Relaid (pre ++ post) (pre ++ (article ++ ' ' :: post))

theorem Blanks.isSpace {run : List Char} (h : Blanks run) : ∀ c ∈ run, isSpace c := by
  intro c hc
  have := h.2 c hc
  simp only [List.mem_cons, List.not_mem_nil, or_false] at this
  rcases this with rfl | rfl | rfl | rfl | rfl <;> rfl

theorem freshAfter_of_getLast? {pre : List Char}
    (h : ∀ b ∈ pre.getLast?, isBlank b ∨ b = '(' ∨ b = ')') : freshAfter true pre := by
  cases pre using List.reverseRecOn with
  | nil => rfl
  | append_singleton pre b =>
    rw [freshAfter_append_singleton]
    simpa [isBoundary, or_assoc] using h b (by simp)

theorem rewriteKeywords_relaid {cs ds : List Char} (h : Relaid cs ds) :
    Respaced false true (rewriteKeywords cs) (rewriteKeywords ds) := by
  cases h with
  | blanks pre run run' post hr hr' outside =>
    refine rewriteKeywords_respaced ?_
    rw [List.append_assoc, List.append_assoc]
    refine .prepend pre ?_
    cases open? : quoteOpen false pre with
    | false => exact .run hr.1 hr'.1 hr.isSpace hr'.isSpace (.refl _ _ _)
    | true =>
      have unquoted := outside.resolve_left (by simp [open?])
      have hidden {run : List Char} (hr : Blanks run) : '"' ∉ run ++ post := by
        rw [List.mem_append, not_or]
        exact ⟨fun mem => absurd (hr.isSpace _ mem) (by decide), unquoted⟩
      exact .unclosed (hidden hr) (hidden hr')
  | article pre article post ha boundary outside =>
    refine applyFrom_respaced plain_writeKeywords solid_writeKeywords ?_
    obtain ⟨dropped, fresh, state, rewritten⟩ := dropArticles_append (freshAfter_of_getLast? boundary)
    rw [rewritten, rewritten]
    refine .prepend dropped ?_
    rw [fresh, state]
    cases open? : quoteOpen false pre with
    | false =>
      rw [dropArticles_article ha]
      exact .right (by decide) (.refl _ _ _)
    | true =>
      have unquoted := outside.resolve_left (by simp [open?])
      have hidden : '"' ∉ article ++ ' ' :: post := by
        rcases List.mem_pair.1 ha with rfl | rfl <;> simpa using unquoted
      rw [applyFrom_unclosed unquoted, applyFrom_unclosed hidden]
      exact .unclosed unquoted hidden

end InventoryQuery
