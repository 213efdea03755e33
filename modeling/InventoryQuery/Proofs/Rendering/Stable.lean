import InventoryQuery.Proofs.Rendering.Fixed
import InventoryQuery.Proofs.Rendering.Unmistakable

/-! Which renderings are read as they were written. A rendering compiles to a tree that is rendered the
same if it is that of a legible tree, and if it is not nested too deeply: arrows nest less deeply than the
`of` that they are rendered with. The tree that it compiles to is then legible itself. -/

namespace InventoryQuery

open Grammar

theorem worded_of_compile {text : List Char} {t : Tree} (h : compile text = .ok t) :
    t.rootExpr.Everywhere Shape.Worded := by
  obtain ⟨u, hu, same⟩ := compile_eq_ok h
  obtain ⟨_, -, -, hd, -⟩ := derives_of_parse hu
  rw [same]
  exact hd.everywhere produced_worded (formed_tokens _) trivial

/-- What is read in a rendering in which each form is clear by itself. -/
theorem Expr.contents_display {e : Expr} (h : e.Everywhere fun s => s.Worded ∧ s.Clear) :
    Token.contents (rewriteKeywords e.display.toList) = reading e.tokens := by
  have read := (Expr.readAs_spell (h.mono fun _ => And.left)).contents [] .nil
  rw [Expr.rewriteKeywords_display h, ← List.append_nil (Expr.spell _ _), read, Token.contents_nil, List.append_nil]

/-- Sources can stand behind `of`, and to the grammar the rendering has the tokens of the expression. -/
structure Expr.Legible (e : Expr) : Prop where
  sourced : e.Everywhere Shape.Sourced
  tokens : (part e.display.toList).map Token.sense = e.tokens.map Token.sense

theorem legible_of_clear {text : List Char} {t : Tree} (h : compile text = .ok t)
    (hs : t.rootExpr.Everywhere Shape.Sourced) (hc : t.rootExpr.Everywhere Shape.Clear) : t.rootExpr.Legible where
  sourced := hs
  tokens := Token.senses_of_texts ((reading_part _).trans (Expr.contents_display ((worded_of_compile h).and hc)))

theorem legible_of_fixed {text : List Char} {t : Tree} (h : compile text = .ok t)
    (fixed : t.rootExpr.display.toList = text) : t.rootExpr.Legible := by
  have rendered := rendered_of_fixed h fixed
  obtain ⟨u, hu, same⟩ := compile_eq_ok h
  obtain ⟨_, -, -, hd, -⟩ := derives_of_parse hu
  have arrows : ∀ t ∈ part text, t.kind ≠ .arrow := fun t ht arrow => (rendered t ht).1 (by simp [arrow])
  have senses := hd.senses (fun t ht => ⟨formed_tokens _ t ht, rendered t ht⟩) trivial
  refine ⟨same ▸ hd.everywhere produced_sourced arrows trivial, ?_⟩
  rw [fixed, same, senses]
  rfl

/-- The grammar derives the tokens of a legible rendering. -/
theorem exists_derives_display {text : List Char} {t : Tree} (h : compile text = .ok t) (legible : t.rootExpr.Legible) :
    ∃ e n, Derives (.rule .expression) (part t.rootExpr.display.toList) e n ∧
      e.display = t.rootExpr.display ∧ e.height ≤ 2 * t.rootExpr.height := by
  have worded := worded_of_compile h
  obtain ⟨sourced, tokens⟩ := legible
  obtain ⟨u, hu, same⟩ := compile_eq_ok h
  rw [same] at sourced tokens worded ⊢
  obtain ⟨_, -, -, hd, -⟩ := derives_of_parse hu
  obtain ⟨e, n, given, display, low⟩ := hd.reread (worded.and sourced)
  exact ⟨e, n, given.of_senses tokens, display, low⟩

/-- The text compiles to a tree that is rendered like this. -/
def Canonical (s : String) : Prop := ∃ u, compile s.toList = .ok u ∧ u.rootExpr.display = s

def TooDeep (s : String) : Prop := ∃ err, compile s.toList = .error err ∧ err.code = .nestedTooDeeply

theorem Canonical.not_tooDeep {s : String} (h : Canonical s) : ¬ TooDeep s := by
  obtain ⟨u, compiled, -⟩ := h
  rintro ⟨err, refused, -⟩
  rw [compiled] at refused
  cases refused

theorem Expr.Legible.compile_display {text : List Char} {t : Tree} (legible : t.rootExpr.Legible)
    (h : compile text = .ok t) :
    Canonical t.rootExpr.display ∨ (maxNesting < 2 * t.rootExpr.height ∧ TooDeep t.rootExpr.display) := by
  obtain ⟨e, n, hd, display, low⟩ := exists_derives_display h legible
  rcases parse_of_derives hd with ⟨-, -, root, s, parsed, holds⟩ | ⟨deep, err, parsed, code⟩
  · refine .inl ⟨Tree.withScopes ⟨s.nodes, root⟩, by rw [compile, parsed]; rfl, ?_⟩
    rw [Tree.rootExpr_withScopes, holds.rootExpr, display]
  · refine .inr ⟨?_, err, by rw [compile, parsed]; rfl, code⟩
    have nested : n < e.height := hd.within
    have limits : maxNesting ≤ maxHeight := by decide
    omega

/-- The tree that the rendering is read as may be another one, as for `- not x`: in `-not x` the word
belongs to a name. So any tree with this rendering will do. -/
theorem rendering_stable (text : List Char) (t : Tree) (h : compile text = .ok t) :
    (Canonical t.rootExpr.display ↔ ¬ TooDeep t.rootExpr.display ∧ ∃ text' t',
      compile text' = .ok t' ∧ t'.rootExpr.display = t.rootExpr.display ∧ t'.rootExpr.Legible) ∧
    (t.rootExpr.Legible → TooDeep t.rootExpr.display → maxNesting < 2 * t.rootExpr.height) ∧
    (t.rootExpr.Everywhere Shape.Sourced → t.rootExpr.Everywhere Shape.Clear → t.rootExpr.Legible) := by
  refine ⟨⟨fun canonical => ⟨canonical.not_tooDeep, ?_⟩, ?_⟩, fun legible deep => ?_, legible_of_clear h⟩
  · obtain ⟨u, compiled, same⟩ := canonical
    exact ⟨_, u, compiled, same, legible_of_fixed compiled (by rw [same])⟩
  · rintro ⟨shallow, text', t', compiled, same, legible⟩
    rw [← same] at shallow ⊢
    exact (legible.compile_display compiled).resolve_right fun deep => shallow deep.2
  · exact (legible.compile_display h).elim (fun canonical => absurd deep canonical.not_tooDeep) And.left

theorem rendering_stable_minus :
    let t : Tree := ⟨#[⟨.phrase "x" none, ⟨7, 8⟩, none, false⟩, ⟨.unary .negation 0, ⟨2, 8⟩, none, false⟩,
      ⟨.unary .minus 1, ⟨0, 8⟩, none, false⟩], 2⟩
    compile "- not x".toList = .ok t ∧ ¬ t.rootExpr.Legible ∧ Canonical t.rootExpr.display := by
  intro t
  let u : Tree := ⟨#[⟨.phrase "not x" none, ⟨1, 6⟩, none, false⟩, ⟨.unary .minus 0, ⟨0, 6⟩, none, false⟩], 1⟩
  have compiled : compile "- not x".toList = .ok t := by decide +kernel
  have rendered : compile "-not x".toList = .ok u := by decide +kernel
  have display : t.rootExpr.display = "-not x" ∧ u.rootExpr.display = "-not x" := by decide +kernel
  have name : (Expr.node (.phrase "not x" none)).Everywhere Shape.Sourced := .node trivial nofun
  have sourced : u.rootExpr.Everywhere Shape.Sourced :=
    .node (s := .unary .minus _) trivial (List.forall_mem_singleton.2 name)
  have legible : u.rootExpr.Legible := ⟨sourced, by decide +kernel⟩
  have shallow : ¬ TooDeep t.rootExpr.display := by
    rw [display.1]
    rintro ⟨err, refused, -⟩
    rw [rendered] at refused
    cases refused
  have other : ¬ t.rootExpr.Legible := by
    rintro ⟨-, tokens⟩
    revert tokens
    decide +kernel
  exact ⟨compiled, other, (rendering_stable _ t compiled).1.2
    ⟨shallow, _, u, rendered, display.2.trans display.1.symm, legible⟩⟩

/-- The ways out: arrows as `of` are nested too deeply, `of` cannot be followed by an operator, behind a
sign an operator is read as a name, and a space uncovers an article. -/
theorem rendering_refused :
    let rendered text := (compile text).map (·.rootExpr.display)
    let signs := List.replicate 63 '-'
    rendered (signs ++ "x.x.x".toList) = .ok (String.ofList (signs ++ "x of x of x".toList)) ∧
      rendered (signs ++ "x of x of x".toList) = .error ⟨.nestedTooDeeply, ⟨75, 76⟩⟩ ∧
    rendered "x -> exists -> y".toList = .ok "y of exists x" ∧
      rendered "y of exists x".toList = .error ⟨.unexpected .existsWord .propertyChain, ⟨6, 13⟩⟩ ∧
    rendered "- not not x".toList = .ok "-not not x" ∧
      rendered "-not not x".toList = .error ⟨.unexpected .notWord .topLevel, ⟨5, 9⟩⟩ ∧
    rendered "x,a".toList = .ok "x, a" ∧
      rendered "x, a".toList = .error ⟨.endOfInput .operand, ⟨3, 3⟩⟩ := by
  decide +kernel

end InventoryQuery
