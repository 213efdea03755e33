import InventoryQuery.Proofs.Grammar.Balance
import InventoryQuery.Proofs.Grammar.Course

/-! A parenthesis that is not closed. All that a run has finished has its parentheses in pairs, so the
one whose end is missed is the last that is still open, whichever rule it is that misses it. -/

namespace InventoryQuery

namespace Grammar

inductive Nested : List Token → Prop
  | nil : Nested []
  | other {t : Token} {ts : List Token} : isParen t.kind = false → Nested ts → Nested (t :: ts)
  | pair {o c : Token} {xs ys : List Token} : o.kind = .leftParen → c.kind = .rightParen → Nested xs →
    Nested ys → Nested (o :: (xs ++ c :: ys))

/-- One of these tokens closes a parenthesis that is opened right in front of them. -/
def Closed (ts : List Token) : Prop := ∃ xs c ys, ts = xs ++ c :: ys ∧ Nested xs ∧ c.kind = .rightParen

theorem Closed.append {ts : List Token} (h : Closed ts) (us : List Token) : Closed (ts ++ us) := by
  obtain ⟨xs, c, ys, rfl, nested, closes⟩ := h
  exact ⟨xs, c, ys ++ us, by simp, nested, closes⟩

namespace Nested

variable {ts us : List Token}

theorem single {t : Token} (h : isParen t.kind = false) : Nested [t] := .other h .nil

theorem append (ht : Nested ts) (hu : Nested us) : Nested (ts ++ us) := by
  induction ht with
  | nil => exact hu
  | other hk _ ih => exact .other hk ih
  | pair ho hc hx _ _ ih => simpa using pair ho hc hx ih

theorem balanced (h : Nested ts) : Balanced ts := by
  induction h with
  | nil => exact .nil
  | other hk _ ih => exact ih.cons hk
  | pair ho hc _ _ ihx ihy => simpa using (ihx.enclosed ho hc).append ihy

theorem inward (h : Nested ts) : Inward ts := by
  induction h with
  | nil => exact .nil
  | other hk _ ih => exact ih.cons fun same => by rw [same] at hk; cases hk
  | pair ho hc hx _ ihx ihy => simpa using (ihx.enclosed ho hc hx.balanced).append ihy

/-- Pairs close nothing that is open before them. -/
theorem not_closed (h : Nested ts) : ¬ Closed ts := by
  rintro ⟨xs, c, ys, rfl, hx, hc⟩
  have all := h.balanced
  have front := hx.balanced
  have behind := h.inward ys ⟨xs ++ [c], by simp⟩
  unfold Balanced at all front
  simp only [List.countP_append, List.countP_cons, hc] at all
  simp only [decide_true, if_true, reduceCtorEq, decide_false, Bool.false_eq_true, if_false] at all
  omega

/-- What opens between the first and the last of them closes there. -/
theorem closed_behind (h : Nested ts) {xs ys : List Token} {p : Token} (hs : ts = xs ++ p :: ys)
    (hp : p.kind = .leftParen) : Closed ys := by
  induction h generalizing xs ys with
  | nil => simp at hs
  | @other t ts hk _ ih =>
    cases xs with
    | nil =>
      cases hs
      rw [hp] at hk
      cases hk
    | cons x xs => exact ih (List.cons.inj hs).2
  | @pair o c inner behind _ hc hi _ ihi ihb =>
    cases xs with
    | nil =>
      cases hs
      exact ⟨inner, c, behind, rfl, hi, hc⟩
    | cons x xs =>
      have other : p ≠ c := fun same => by rw [same, hc] at hp; cases hp
      rcases List.append_eq_append_iff.1 (List.cons.inj hs).2 with ⟨as, rfl, ha⟩ | ⟨bs, rfl, hb⟩
      · cases as with
        | nil => exact absurd (List.cons.inj ha).1.symm other
        | cons a as => exact ihb (List.cons.inj ha).2
      · cases bs with
        | nil => exact absurd (List.cons.inj hb).1 other
        | cons b bs =>
          obtain ⟨rfl, rfl⟩ := List.cons.inj hb
          exact (ihi rfl).append _

end Nested

/-- The parenthesis at `opened` is open behind these tokens, and all behind it are in pairs. -/
def LeftOpen (ts : List Token) (opened : Span) : Prop :=
  ∃ xs p ys, ts = xs ++ p :: ys ∧ p.kind = .leftParen ∧ p.span = opened ∧ Nested ys

theorem LeftOpen.behind {ts : List Token} {opened : Span} (h : LeftOpen ts opened) (us : List Token) :
    LeftOpen (us ++ ts) opened := by
  obtain ⟨xs, p, ys, rfl, hp, hs, nested⟩ := h
  exact ⟨us ++ xs, p, ys, by simp, hp, hs, nested⟩

theorem isParen_of_isLink {k : Kind} (h : isLink k) : isParen k = false := by
  revert h
  cases k <;> decide

theorem isParen_of_single? {t : Token} {shape : Shape NodeId} (h : single? t = some shape) :
    isParen t.kind = false := by
  unfold single? at h
  split at h <;> simp_all [isParen]

/-- What is read has its parentheses in pairs. -/
theorem Reads.nested {s t : State} {ps : List NodeId} (h : Reads s ps t) : ∃ ts, Between s ts t ∧ Nested ts := by
  induction h with
  | nothing => exact ⟨[], .nothing, .nil⟩
  | append _ _ ih ih' =>
    obtain ⟨ts, between, nested⟩ := ih
    obtain ⟨us, between', nested'⟩ := ih'
    exact ⟨ts ++ us, between.trans between', nested.append nested'⟩
  | link hk => exact ⟨_, .one (ne_endOfInput_of_isLink hk), .single (isParen_of_isLink hk)⟩
  | leaf hs => exact ⟨_, .one (ne_endOfInput_of_single? hs), .single (isParen_of_single? hs)⟩
  | enclosed ho _ hc ih =>
    obtain ⟨ts, between, nested⟩ := ih
    refine ⟨_ :: (ts ++ [_]), ?_, .pair ho hc nested .nil⟩
    exact (Between.one (by rw [ho]; nofun)).trans (between.trans (.one (by rw [hc]; nofun)))
  | entered _ _ _ ih => exact ih
  | within _ _ ih => exact ih

theorem unexpected_ne_unclosedParen (s : State) (k : Kind) (o : Span) : unexpected s ≠ .unclosedParen k o := by
  unfold unexpected
  dsimp only
  split <;> (try split) <;> nofun

/-- The end of the input is not read, so there is always a token that comes next. -/
theorem Between.exists_after {text : List Char} {s : State} {ts : List Token}
    (h : Between (.initial (tokens text)) ts s) : ∃ after, tokens text = ts ++ s.here :: after := by
  have all : tokens text = ts ++ s.rest := h.1
  cases hs : s.rest with
  | nil =>
    rw [hs, List.append_nil, tokens_eq] at all
    exact absurd rfl (h.2 (Token.endOf text) (by rw [← all]; simp))
  | cons t after => exact ⟨after, by rw [here_cons hs, all, hs]⟩

/-- What has been read where a run fails, and what is open there if that is the error. -/
structure FailsAt (s : State) (e : SyntaxError) (t : State) (ts : List Token) : Prop where
  between : Between s ts t
  unclosed : ∀ k o, e.cause = .unclosedParen k o →
    k = t.here.kind ∧ t.here.kind ≠ .rightParen ∧ LeftOpen ts o

/-- Less is read from a later state on. -/
theorem FailsAt.after {s t u : State} {e : SyntaxError} {ts us : List Token} (h : FailsAt t e u us)
    (before : Between s ts t) : FailsAt s e u (ts ++ us) := by
  refine ⟨before.trans h.between, fun k o hk => ?_⟩
  obtain ⟨found, other, opened⟩ := h.unclosed k o hk
  exact ⟨found, other, opened.behind ts⟩

/-- The frame that reports is that of the last parenthesis still open: what it has read itself is in
pairs, and what the frames further out have read is in front. -/
theorem Fails.failsAt {s t : State} {e : SyntaxError} (h : Fails s e t) : ∃ ts, FailsAt s e t ts := by
  induction h with
  | @unexpected s => exact ⟨[], .nothing, fun k o h => absurd h (unexpected_ne_unclosedParen s k o)⟩
  | @refused s cause hr =>
    refine ⟨[], .nothing, fun k o (h : cause = _) => ?_⟩
    rw [h] at hr
    cases hr
  | unclosed ho hr hc =>
    obtain ⟨ts, between, nested⟩ := hr.nested
    refine ⟨_, (Between.one (by rw [ho]; nofun)).trans between, fun k o h => ?_⟩
    cases h
    exact ⟨rfl, hc, [], _, ts, rfl, ho, rfl, nested⟩
  | after hr _ ih =>
    obtain ⟨ts, between⟩ := hr.between
    obtain ⟨us, later⟩ := ih
    exact ⟨_, later.after between⟩
  | enclosed ho _ ih =>
    obtain ⟨us, inner⟩ := ih
    exact ⟨_, inner.after (.one (by rw [ho]; nofun))⟩
  | within _ _ ih =>
    obtain ⟨us, inner⟩ := ih
    exact ⟨us, inner.between, inner.unclosed⟩

end Grammar

open Grammar

/-- An error for a parenthesis that is not closed is found at a token that does not close it, and is
related to one place: that of the last parenthesis that is still open there. -/
theorem unclosed_paren {text : List Char} {e : SyntaxError} (h : parse text = .error e)
    (hc : e.code = .unclosedParen) :
    ∃ before opened inside found after, tokens text = before ++ opened :: (inside ++ found :: after) ∧
      e = ⟨.unclosedParen found.kind opened.span, found.span⟩ ∧
      e.report.related = [⟨"opened here", opened.span⟩] ∧
      opened.kind = .leftParen ∧ found.kind ≠ .rightParen ∧ ¬ Closed inside ∧
      ∀ xs p ys, inside = xs ++ p :: ys → p.kind = .leftParen → Closed ys := by
  obtain ⟨s, fails⟩ := fails_of_parseTokens h (by rw [hc]; nofun)
  obtain ⟨before, failsAt⟩ := fails.failsAt
  obtain ⟨after, all⟩ := failsAt.between.exists_after
  obtain ⟨cause, span⟩ := e
  obtain ⟨k, o, rfl⟩ : ∃ k o, cause = .unclosedParen k o := by
    cases cause <;> first | exact ⟨_, _, rfl⟩ | cases hc
  obtain ⟨rfl, other, xs, p, ys, rfl, hp, rfl, nested⟩ := failsAt.unclosed k o rfl
  obtain rfl : span = _ := fails.span
  exact ⟨xs, p, ys, s.here, after, by rw [all, List.append_assoc, List.cons_append], rfl, rfl, hp, other,
    nested.not_closed, fun _ _ _ => nested.closed_behind⟩

/-- Two are open, and the pair in between is none of them. -/
theorem unclosed_paren_inner :
    let text := "(1 + ((2) 3".toList
    let e : SyntaxError := ⟨.unclosedParen .numeral ⟨5, 6⟩, ⟨10, 11⟩⟩
    parse text = .error e ∧ e.code = .unclosedParen ∧
    ∃ before opened inside found after, tokens text = before ++ opened :: (inside ++ found :: after) ∧
      e = ⟨.unclosedParen found.kind opened.span, found.span⟩ ∧
      e.report.related = [⟨"opened here", opened.span⟩] ∧
      opened.kind = .leftParen ∧ found.kind ≠ .rightParen ∧ ¬ Closed inside ∧
      ∀ xs p ys, inside = xs ++ p :: ys → p.kind = .leftParen → Closed ys := by
  intro text e
  have rejected : parse text = .error e := by decide +kernel
  exact ⟨rejected, rfl, unclosed_paren rejected rfl⟩

end InventoryQuery
