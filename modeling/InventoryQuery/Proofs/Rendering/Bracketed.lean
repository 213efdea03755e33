import InventoryQuery.Proofs.Rendering.Stable
import InventoryQuery.Proofs.Text.Quoted
import InventoryQuery.Proofs.Tree.Alike
import InventoryQuery.Proofs.Tree.Placement

/-! The fully bracketed form says all there is to say about an expression that has been compiled. It
is read from the front: the name of the form ends at a space or a parenthesis, digits do so too, a
quoted text shows its own end, and a part begins with a space where the form would end with a
parenthesis. So no form needs to say how many parts it has. -/

namespace InventoryQuery

open Grammar Lexeme

theorem PrefixOperator.spelling_injective : Function.Injective PrefixOperator.spelling := by
  intro o o' h
  cases o <;> cases o' <;> first | rfl | exact absurd h (by decide)

theorem IsRelation.mem_relationForms {words : String} (h : IsRelation words) :
    words.toList ∈ relationForms := by
  obtain ⟨s, hs, rfl⟩ := h
  rw [String.toList_ofList]
  exact List.mem_map.2 ⟨(s, .relation), List.mem_filter.2 ⟨hs, rfl⟩, rfl⟩

/-- A relation is spelled like no other operator, and the others are spelled differently. -/
theorem InfixOperator.spelling_inj {o o' : InfixOperator} {l r l' r' : Expr}
    (hw : Shape.Worded (.binary o l r)) (hw' : Shape.Worded (.binary o' l' r'))
    (h : o.spelling = o'.spelling) : o = o' := by
  have other := (form_of_operator hw).2
  have other' := (form_of_operator hw').2
  rw [h] at other
  rw [← h] at other'
  cases o with
  | relation words =>
    cases o' with
    | relation words' => exact congrArg relation h
    | _ => exact absurd (IsRelation.mem_relationForms hw) (other' nofun)
  | _ =>
    cases o' with
    | relation words' => exact absurd (IsRelation.mem_relationForms hw') (other nofun)
    | _ => first | rfl | exact absurd h (by decide)

namespace Shape

theorem tag_eq_number {s : Shape Expr} (h : s.tag = "number") : ∃ digits, s = number digits := by
  cases s with
  | number digits => exact ⟨digits, rfl⟩
  | _ => exact absurd h (by simp [tag])

/-- The name of a form says whether it has a text. -/
theorem isSome_text? (s : Shape Expr) : s.text?.isSome =
    decide (s.tag ∈ ["string", "number", "phrase", "cast", "unary", "binary"]) := by
  cases s <;> rfl

/-- The name, the text and the parts make the form. Only among compiled expressions: a relation of
the word `and` would have all three from the connective. -/
theorem eq_of_pieces {s s' : Shape Expr} (hs : s.Worded) (hs' : s'.Worded) (tags : s.tag = s'.tag)
    (texts : s.text? = s'.text?) (parts : s.children = s'.children) : s = s' := by
  cases s with
  | phrase name argument =>
    cases s' with
    | phrase name' argument' => rw [Option.some.inj texts, toList_injective parts]
    | _ => exact absurd tags (by simp [tag])
  | unary o operand =>
    cases s' with
    | unary o' operand' =>
      rw [PrefixOperator.spelling_injective (Option.some.inj texts), List.singleton_inj.1 parts]
    | _ => exact absurd tags (by simp [tag])
  | binary o left right =>
    cases s' with
    | binary o' left' right' =>
      have operators := InfixOperator.spelling_inj hs hs' (Option.some.inj texts)
      simp_all [children]
    | _ => exact absurd tags (by simp [tag])
  | _ =>
    cases s' <;> simp [tag] at tags
    all_goals simp_all [text?, children]

end Shape

namespace Expr

def spaced (e : Expr) : List Char := ' ' :: e.bracketed.toList

theorem toList_bracketedAll (es : List Expr) : (bracketedAll es).toList = es.flatMap spaced := by
  induction es with
  | nil => rfl
  | cons e es ih => simp [bracketedAll, spaced, ih]

theorem toList_bracketed (s : Shape Expr) : (bracketed (.node s)).toList =
    '(' :: (s.tag.toList ++ ((label s).toList ++ (s.children.flatMap spaced ++ [')']))) := by
  have parts : (bracketedParts s).toList = s.children.flatMap spaced := by
    cases s with
    | phrase name argument => cases argument <;> simp [bracketedParts, Shape.children, spaced]
    | tuple items => exact toList_bracketedAll items
    | collection items => exact toList_bracketedAll items
    | _ => simp [bracketedParts, Shape.children, spaced]
  simp [bracketed, parts]

theorem label_of_ne_number {s : Shape Expr} (h : s.tag ≠ "number") :
    (label s).toList = (s.text?.map fun text => ' ' :: (quoted text).toList).getD [] := by
  cases s with
  | number digits => exact absurd rfl h
  | _ => simp [label, Shape.text?]

/-- The characters that end a name or digits. -/
def separates (c : Char) : Bool := c == ' ' || c == ')'

def Separated (rest : List Char) : Prop := ∀ c ∈ rest.head?, ¬ !separates c

theorem separated_parts (es : List Expr) (u : List Char) :
    Separated (es.flatMap spaced ++ ')' :: u) := by
  cases es <;> · rintro _ ⟨⟩; decide

theorem separated_label (s : Shape Expr) {rest : List Char} (h : Separated rest) :
    Separated ((label s).toList ++ rest) := by
  by_cases number : s.tag = "number"
  · obtain ⟨digits, rfl⟩ := Shape.tag_eq_number number
    simp [Separated, label, separates]
  · rw [label_of_ne_number number]
    cases s.text? with
    | none => exact h
    | some text =>
      rintro _ ⟨⟩
      decide

theorem tag_run (s : Shape Expr) : ∀ c ∈ s.tag.toList, !separates c := by
  refine List.all_eq_true.1 ?_
  cases s <;> · rw [Shape.tag]; decide

theorem digits_run {ds : List Char} (h : IsNumeral ds) : ∀ c ∈ ds, !separates c := by
  intro c hc
  have digit := h.2 c hc
  rw [Bool.not_eq_true', separates, Bool.or_eq_false_iff, beq_eq_false_iff_ne, beq_eq_false_iff_ne]
  constructor <;> rintro rfl <;> exact absurd digit (by decide)

theorem label_append_inj {s s' : Shape Expr} (hs : s.Worded) (hs' : s'.Worded)
    (tags : s.tag = s'.tag) {rest rest' : List Char} (hr : Separated rest) (hr' : Separated rest')
    (h : (label s).toList ++ rest = (label s').toList ++ rest') :
    s.text? = s'.text? ∧ rest = rest' := by
  by_cases number : s.tag = "number"
  · obtain ⟨digits, rfl⟩ := Shape.tag_eq_number number
    obtain ⟨digits', rfl⟩ := Shape.tag_eq_number (tags ▸ number)
    have after : digits.toList ++ rest = digits'.toList ++ rest' := by simpa [label] using h
    obtain ⟨same, left⟩ := run_append_inj (digits_run hs) (digits_run hs') hr hr' after
    exact ⟨congrArg some (String.toList_inj.1 same), left⟩
  · have texts : s.text?.isSome = s'.text?.isSome := by
      rw [Shape.isSome_text?, Shape.isSome_text?, tags]
    rw [label_of_ne_number number, label_of_ne_number (tags ▸ number)] at h
    cases text : s.text? <;> cases text' : s'.text? <;> rw [text, text'] at texts h
    · exact ⟨rfl, h⟩
    · cases texts
    · cases texts
    · obtain ⟨rfl, left⟩ := quoted_append_inj (List.cons_eq_cons.1 h).2
      exact ⟨rfl, left⟩

/-- A text that begins with the bracketed form of an expression begins with that of no other, as long
as digits are digits: they are written as they are. -/
theorem bracketed_append_inj {e f : Expr} (he : e.Everywhere Shape.Worded)
    (hf : f.Everywhere Shape.Worded) {u v : List Char}
    (h : e.bracketed.toList ++ u = f.bracketed.toList ++ v) : e = f ∧ u = v := by
  induction he generalizing f u v with
  | @node s hs _ ih =>
    cases hf with
    | @node s' hs' parts' =>
      rw [toList_bracketed, toList_bracketed] at h
      simp only [List.cons_append, List.append_assoc, List.cons_eq_cons, true_and,
        List.nil_append] at h
      -- the name, the text and the parts are cut off one after the other
      obtain ⟨tags, h⟩ := run_append_inj (tag_run s) (tag_run s')
        (separated_label s (separated_parts _ _)) (separated_label s' (separated_parts _ _)) h
      have tags : s.tag = s'.tag := String.toList_inj.1 tags
      obtain ⟨texts, h⟩ := label_append_inj hs hs' tags (separated_parts _ _) (separated_parts _ _) h
      have starts (e : Expr) : ∃ c w, e.spaced = c :: w ∧ c ≠ ')' := ⟨' ', _, rfl, by decide⟩
      obtain ⟨parts, h⟩ := flatMap_append_inj starts
        (fun a ha b hb u v h => ih a ha (parts' b hb) (List.cons_eq_cons.1 h).2) h
      exact ⟨congrArg node (Shape.eq_of_pieces hs hs' tags texts parts), h⟩

theorem sameShape_iff {e f : Expr} (he : e.Everywhere Shape.Worded)
    (hf : f.Everywhere Shape.Worded) : e.sameShape f ↔ e = f := by
  rw [sameShape, beq_iff_eq]
  refine ⟨fun h => ?_, congrArg bracketed⟩
  exact (bracketed_append_inj (u := []) (v := []) he hf (by rw [h])).1

end Expr

/-- Two texts share the bracketed form just if their trees are the same but for numbers, places and
receivers. -/
theorem sameShape_iff_alike (a b : List Char) (t u : Tree) (ha : compile a = .ok t)
    (hb : compile b = .ok u) :
    t.rootExpr.sameShape u.rootExpr ↔ t.Alike u t.root u.root := by
  rw [Expr.sameShape_iff (worded_of_compile ha) (worded_of_compile hb)]
  obtain ⟨t', ht, rfl⟩ := whole_of_compile ha
  obtain ⟨u', hu, rfl⟩ := whole_of_compile hb
  obtain ⟨n, hn, -⟩ := ht.withScopes_root
  obtain ⟨m, hm, -⟩ := hu.withScopes_root
  have down := ht.withScopes.downward
  have down' := hu.withScopes.downward
  exact ⟨Tree.alike_of_expr_eq down down' (congrArg (Option.map Node.shape) hn)
    (congrArg (Option.map Node.shape) hm), Tree.Alike.expr_eq down down'⟩

/-- An arrow puts the rows in another order. -/
theorem sameShape_iff_alike_arrow :
    let t : Tree := ⟨#[⟨.phrase "x" none, ⟨0, 1⟩, some 1, true⟩, ⟨.phrase "y" none, ⟨6, 7⟩, none, false⟩,
      ⟨.property 0 1, ⟨0, 7⟩, none, false⟩], 2⟩
    let u : Tree := ⟨#[⟨.phrase "y" none, ⟨0, 1⟩, none, false⟩, ⟨.phrase "x" none, ⟨5, 6⟩, some 0, true⟩,
      ⟨.property 1 0, ⟨0, 6⟩, none, false⟩], 2⟩
    compile "x of y".toList = .ok t ∧ compile "y -> x".toList = .ok u ∧
      t.rootExpr.sameShape u.rootExpr ∧
      (t.rootExpr.sameShape u.rootExpr ↔ t.Alike u t.root u.root) := by
  intro t u
  have left : compile "x of y".toList = .ok t := by decide +kernel
  have right : compile "y -> x".toList = .ok u := by decide +kernel
  exact ⟨left, right, by decide +kernel, sameShape_iff_alike _ _ t u left right⟩

end InventoryQuery
