import Mathlib.Data.List.Infix
import InventoryQuery.Grammar.Compile
import InventoryQuery.Proofs.Catalog.Singular
import InventoryQuery.Typing.Resolve

/-! Creations and properties share one table of keys. A property can answer where a creation is asked
for, but only if what is asked for reads like a property with its owner: with ` of` before an opening
bracket. -/

namespace InventoryQuery

/-- The text ends in an owner in its brackets. -/
def OwnerClosed (text : String) : Prop := ∃ front owner, text = front ++ " of <" ++ owner ++ ">"

/-- The name with its parameter in brackets reads like a name with its owner. -/
def NamesOwner (name : String) : (params : Option String) → Prop
  | none => OwnerClosed name
  | some param => " of <".toList <:+: name.toList ∨ " of".toList <:+ name.toList ∨ " of <".toList <:+: param.toList

theorem eq_of_split_separator {left right : List Char} (split : " of <".toList = left ++ ' ' :: '<' :: right) :
    left = " of".toList := by
  have short : 5 = left.length + (right.length + 1 + 1) := by simpa using congrArg List.length split
  rcases left with _ | ⟨a, _ | ⟨b, _ | ⟨c, _ | ⟨d, left⟩⟩⟩⟩
  · simp at split
  · simp at split
  · simp at split
  · obtain ⟨rfl, rfl, rfl, -⟩ : ' ' = a ∧ 'o' = b ∧ 'f' = c ∧ right = [] := by simpa using split
    rfl
  · simp only [List.length_cons] at short
    omega

/-- The bracket of the parameter is that of an owner only behind ` of`. -/
theorem infix_bracketed_iff (name param : List Char) :
    " of <".toList <:+: name ++ ' ' :: '<' :: param ↔
      " of <".toList <:+: name ∨ " of".toList <:+ name ∨ " of <".toList <:+: param := by
  constructor
  · intro found
    rcases List.infix_append_iff.1 found with before | behind | ⟨left, right, split, ends, begins⟩
    · exact .inl before
    · have inside : " of <".toList <:+: param := by simpa [List.infix_cons_iff] using behind
      exact .inr (.inr inside)
    · -- the separator reaches into the brackets with its own bracket at most
      rcases right with _ | ⟨c, _ | ⟨d, right⟩⟩
      · rw [List.append_nil] at split
        exact .inl (split ▸ ends.isInfix)
      · obtain rfl : c = ' ' := by simpa using begins
        have last := congrArg List.getLast? split
        simp at last
      · obtain ⟨rfl, rfl, -⟩ : c = ' ' ∧ d = '<' ∧ right <+: param := by simpa using begins
        exact .inr (.inl (eq_of_split_separator split ▸ ends))
  · rintro (before | ⟨front, rfl⟩ | ⟨front, rest, rfl⟩)
    · exact before.trans (List.prefix_append _ _).isInfix
    · exact ⟨front, param, by simp⟩
    · exact ⟨name ++ ' ' :: '<' :: front, rest, by simp⟩

theorem ownerClosed_lookupKey (name : String) (params : Option String) (owner : String) :
    OwnerClosed (lookupKey name params (some owner)) :=
  ⟨name ++ (params.map fun p => " <" ++ p ++ ">").getD "", owner, by simp [lookupKey, String.append_assoc]⟩

theorem ownerClosed_lookupKey_none_iff (name : String) (params : Option String) :
    OwnerClosed (lookupKey name params none) ↔ NamesOwner name params := by
  rcases params with _ | param
  · simp [lookupKey, NamesOwner]
  · rw [NamesOwner, ← infix_bracketed_iff]
    have key : (lookupKey name (some param) none).toList = (name.toList ++ ' ' :: '<' :: param.toList) ++ ['>'] := by
      simp [lookupKey]
    constructor
    · rintro ⟨front, owner, same⟩
      have split : (name.toList ++ ' ' :: '<' :: param.toList) ++ ['>'] =
          (front.toList ++ " of <".toList ++ owner.toList) ++ ['>'] := by
        rw [← key, same]
        simp
      exact ⟨front.toList, owner.toList, (List.append_cancel_right split).symm⟩
    · rintro ⟨front, owner, split⟩
      refine ⟨String.ofList front, String.ofList owner, String.toList_inj.1 ?_⟩
      rw [key, ← split]
      simp

/-- The key of every indexed fact is made of its singular phrase, of a parameter if it takes one, and of
its owner. -/
def Catalog.Keyed (c : Catalog) (filter : Filter) : Prop :=
  ∀ f ∈ c.indexed filter, ∃ name ∈ f.singular, ∃ param, f.indexKey = lookupKey name param f.owner

namespace Index

variable {c : Catalog} {filter : Filter}

theorem mem_indexed_of_get? {key : String} {f : PropertyFact} (h : (build c filter).get? key = some f) :
    f ∈ c.indexed filter ∧ f.indexKey = key := by
  rw [get?_build] at h
  simpa using List.mem_filter.1 (List.mem_of_getLast? h)

/-- Unless the name with its parameter reads like a name with its owner, what is found as a creation has
no owner. -/
theorem creation_unowned (c : Catalog) (filter : Filter) (keyed : c.Keyed filter) (name : String)
    (params : Option String) (f : PropertyFact) (found : (build c filter).creation name params = .ok f) :
    f.isCreation ∨ NamesOwner ((build c filter).singular name) (params.map (build c filter).singular) := by
  obtain ⟨indexed, same⟩ := mem_indexed_of_get? ((creation_eq_ok_iff _ name params f).1 found)
  obtain ⟨front, -, param, key⟩ := keyed f indexed
  rcases owner : f.owner with _ | o
  · left
    rw [PropertyFact.isCreation, owner, Option.isNone_none]
  · right
    rw [owner, same] at key
    exact (ownerClosed_lookupKey_none_iff _ _).1 (key ▸ ownerClosed_lookupKey front param o)

theorem creation_unowned_plural :
    let file : PropertyFact :=
      { PropertyFact.bare with key := "file <string>: file", singular := some "file", plural := some "files" }
    let name : PropertyFact :=
      { PropertyFact.bare with key := "name of <file>: string", singular := some "name", owner := some "file" }
    let c : Catalog := ⟨.empty, .ofList [("1", file), ("2", name)]⟩
    let ix := build c .everything
    c.Keyed .everything ∧ ix.creation "files" (some "string") = .ok file ∧ ¬ NamesOwner "file" (some "string") ∧
      (file.isCreation ∨ NamesOwner (ix.singular "files") ((some "string").map ix.singular)) := by
  intro file name c ix
  have facts : c.indexed .everything = [file, name] := by decide +kernel
  have keyed : c.Keyed .everything := by
    intro f hf
    rw [facts, List.mem_cons, List.mem_singleton] at hf
    rcases hf with rfl | rfl
    · exact ⟨"file", rfl, some "string", by decide +kernel⟩
    · exact ⟨"name", rfl, none, by decide +kernel⟩
  have found : ix.creation "files" (some "string") = .ok file := by decide +kernel
  have plain : ¬ NamesOwner "file" (some "string") := by
    unfold NamesOwner
    decide +kernel
  exact ⟨keyed, found, plain, creation_unowned c .everything keyed "files" (some "string") file found⟩

/-- A name that ends in `of` finds a property of its parameter. A text can have such a name, since `of` is
no keyword before a quote. -/
theorem creation_owned :
    let length : PropertyFact :=
      { PropertyFact.bare with
        key := "length of <string>: integer", singular := some "length", owner := some "string", resultType := "integer" }
    let c : Catalog := ⟨.empty, .ofList [("length of <string>: integer", length)]⟩
    let ix := build c .everything
    c.Keyed .everything ∧ ix.creation "length of" (some "string") = .ok length ∧ length.isCreation = false ∧
      (compile "length of\"x\"".toList).toOption.bind (fun t => (t.typeOf? ix t.root).map (Except.map Ty.display)) =
        some (.ok "integer") := by
  intro length c ix
  have facts : c.indexed .everything = [length] := by decide +kernel
  have keyed : c.Keyed .everything := by
    intro f hf
    rw [facts, List.mem_singleton] at hf
    subst hf
    exact ⟨"length", rfl, none, by decide +kernel⟩
  exact ⟨keyed, by decide +kernel, by decide +kernel, by decide +kernel⟩

end Index

end InventoryQuery
