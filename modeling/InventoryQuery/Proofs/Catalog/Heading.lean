import InventoryQuery.Proofs.Catalog.Creation
import InventoryQuery.Proofs.Catalog.Listing
import InventoryQuery.Proofs.Text.Separator
import InventoryQuery.Typing.Ty

/-! Keys taken apart again. The name, the parameter and the owner of a key hold neither a colon nor
angle brackets, so that the first colon ends the key and the first closing bracket ends the parameter.
The types of the parameter are read back, unless the name ends in ` of`: then the bracket of the
parameter looks like that of an owner. -/

namespace InventoryQuery

structure KeyPart (s : String) : Prop where
  nonempty : s ≠ ""
  trimmed : trim s.toList = s.toList
  unmarked : ∀ c ∈ [':', '<', '>'], c ∉ s.toList

-- by `all`, since a statement on all `c ∈ cs` may be decided by going through all characters there are
instance (s : String) : Decidable (KeyPart s) :=
  decidable_of_iff (s ≠ "" ∧ trim s.toList = s.toList ∧ [':', '<', '>'].all fun c => !s.toList.contains c)
    ⟨fun ⟨nonempty, trimmed, unmarked⟩ => ⟨nonempty, trimmed, by simpa using unmarked⟩,
      fun ⟨nonempty, trimmed, unmarked⟩ => ⟨nonempty, trimmed, by simpa using unmarked⟩⟩

namespace KeyPart

variable {s : String}

theorem toList_ne_nil (h : KeyPart s) : s.toList ≠ [] := by
  simpa using h.nonempty

theorem unbracketed (h : KeyPart s) : Unbracketed s := ⟨h.unmarked '<' (by simp), h.unmarked '>' (by simp)⟩

end KeyPart

/-- The key of the fact is made of the three parts and goes on with a result. -/
structure PropertyFact.Keyed (f : PropertyFact) (name : String) (param owner : Option String) : Prop where
  namePart : KeyPart name
  paramPart : ∀ p ∈ param, KeyPart p
  ownerPart : ∀ o ∈ owner, KeyPart o
  key : ∃ result, f.key = lookupKey name param owner ++ ": " ++ result

def ownerSuffix (owner : Option String) : List Char := ((owner.map fun o => " of <" ++ o ++ ">").getD "").toList

theorem toList_lookupKey_owner (name : String) (param owner : Option String) :
    (lookupKey name param owner).toList = (lookupKey name param none).toList ++ ownerSuffix owner := by
  simp [lookupKey, ownerSuffix]

theorem ownerSuffix_cases (owner : Option String) : ownerSuffix owner = [] ∨ " of <".toList <+: ownerSuffix owner := by
  rcases owner with _ | o
  · exact .inl rfl
  · exact .inr ⟨o.toList ++ ['>'], by simp [ownerSuffix]⟩

theorem fromBracket_cases (param owner : Option String) :
    param = none ∧ owner = none ∨ ∃ front, fromBracket param owner = front ++ ['>'] := by
  rcases param with _ | p <;> rcases owner with _ | o
  · exact .inl ⟨rfl, rfl⟩
  · exact .inr ⟨'<' :: o.toList, rfl⟩
  · exact .inr ⟨'<' :: p.toList, rfl⟩
  · exact .inr ⟨'<' :: (p.toList ++ '>' :: (" of <".toList ++ o.toList)), by simp [fromBracket]⟩

namespace PropertyFact

variable {f : PropertyFact} {name : String} {param owner : Option String}

namespace Keyed

theorem colon_not_mem (h : f.Keyed name param owner) : ':' ∉ (lookupKey name param owner).toList := by
  have hn := h.namePart.unmarked ':' (by simp)
  have hp := fun p hp => (h.paramPart p hp).unmarked ':' (by simp)
  have ho := fun o ho => (h.ownerPart o ho).unmarked ':' (by simp)
  rcases param with _ | p <;> rcases owner with _ | o <;> simp_all [lookupKey]

/-- A key ends in its name or in a bracket. -/
theorem trimmed (h : f.Keyed name param owner) :
    trim (lookupKey name param owner).toList = (lookupKey name param owner).toList := by
  obtain ⟨first, last⟩ := (trim_eq_self_iff _).1 h.namePart.trimmed
  refine (trim_eq_self_iff _).2 ⟨?_, ?_⟩
  · have begins : (lookupKey name param owner).toList.head? = name.toList.head? := by
      obtain ⟨c, cs, hc⟩ := List.exists_cons_of_ne_nil h.namePart.toList_ne_nil
      simp [lookupKey, hc]
    rwa [begins]
  · rcases fromBracket_cases param owner with ⟨rfl, rfl⟩ | ⟨front, closed⟩
    · simpa [lookupKey] using last
    · rw [toList_lookupKey, closed, ← List.append_assoc, List.getLast?_concat]
      rintro c hc
      obtain rfl : '>' = c := by simpa using hc
      decide

theorem indexKeyChars_eq (h : f.Keyed name param owner) : f.indexKeyChars = (lookupKey name param owner).toList := by
  obtain ⟨result, key⟩ := h.key
  have split : f.key.toList = (lookupKey name param owner).toList ++ (':' :: ' ' :: result.toList) := by
    rw [key, String.toList_append, String.toList_append, List.append_assoc]
    rfl
  have before : ∀ c ∈ (lookupKey name param owner).toList, decide (c ≠ ':') := by
    intro c hc
    simpa using fun e : c = ':' => h.colon_not_mem (e ▸ hc)
  rw [indexKeyChars, split, takeWhile_run before (by simp), h.trimmed]

end Keyed

theorem not_infix_of_not_mem {sep cs : List Char} {c : Char} (hc : c ∈ sep) (h : c ∉ cs) : ¬ sep <:+: cs :=
  fun inside => h (inside.subset hc)

/-- The owner is cut off where it begins, as long as the parameter does not look like one. -/
theorem Keyed.upTo_owner (h : f.Keyed name param owner) (plain : param.isSome → ¬ " of".toList <:+ name.toList) :
    upTo " of <".toList f.indexKeyChars = (lookupKey name param none).toList := by
  rw [h.indexKeyChars_eq, toList_lookupKey_owner, upTo_append_eq_iff (by simp) (ownerSuffix_cases owner)]
  have bracket : '<' ∈ " of <".toList := by simp
  have named : '<' ∉ name.toList := h.namePart.unbracketed.1
  have tail : '<' ∉ (ownerSuffix owner).take (" of <".toList.length - 1) := by
    rcases owner with _ | o <;> simp [ownerSuffix]
  -- of the owner, all that a separator can reach from before it is a text without a bracket
  generalize (ownerSuffix owner).take (" of <".toList.length - 1) = rest at tail
  rcases param with _ | p
  · have key : (lookupKey name none none).toList ++ rest = name.toList ++ rest := by simp [lookupKey]
    rw [key]
    exact not_infix_of_not_mem bracket (by simp [named, tail])
  · have closed : '<' ∉ p.toList ++ '>' :: rest := by simp [(h.paramPart p rfl).unbracketed.1, tail]
    have key : (lookupKey name (some p) none).toList ++ rest = name.toList ++ ' ' :: '<' :: (p.toList ++ '>' :: rest) := by
      simp [lookupKey]
    rw [key, infix_bracketed_iff]
    rintro (inside | ends | inside)
    · exact not_infix_of_not_mem bracket named inside
    · exact plain rfl ends
    · exact not_infix_of_not_mem bracket closed inside

theorem Keyed.dropWhile_bracket (h : f.Keyed name param owner) :
    (lookupKey name param none).toList.dropWhile (· ≠ '<') = fromBracket param none := by
  rw [toList_lookupKey]
  exact dropWhile_run (by simpa using open_not_mem_beforeBracket h.namePart.unbracketed param none)
    (by simpa using head?_fromBracket param none)

theorem Keyed.parameterTypes_none (h : f.Keyed name none owner) : f.parameterTypes = [] := by
  rw [parameterTypes, h.upTo_owner nofun, h.dropWhile_bracket]
  rfl

theorem Keyed.parameterTypes_some {p : String} (h : f.Keyed name (some p) owner)
    (plain : ¬ " of".toList <:+ name.toList) :
    f.parameterTypes =
      (((piecesAt ',' (withoutParens p.toList)).map trim).filter fun p => !p.isEmpty).map String.ofList := by
  have closed : ((p.toList ++ ['>']).reverse.dropWhile (· = '>')).reverse = p.toList := by
    have stop : ∀ c ∈ p.toList.reverse.head?, ¬ decide (c = '>') := by
      intro c hc
      have inside : c ∈ p.toList := List.mem_reverse.1 (List.mem_of_mem_head? hc)
      simpa using fun e : c = '>' => (h.paramPart p rfl).unbracketed.2 (e ▸ inside)
    rw [List.reverse_append, List.reverse_singleton, dropWhile_run (by simp) stop, List.reverse_reverse]
  rw [parameterTypes, h.upTo_owner fun _ => plain, h.dropWhile_bracket]
  simp only [fromBracket, closed]

end PropertyFact

def parameterOf : List String → Option String
  | [] => none
  | [type] => some type
  | types => some (Ty.tuple (types.map .named)).display

structure ListedType (type : String) : Prop extends KeyPart type where
  unlisted : ∀ c ∈ [',', '(', ')'], c ∉ type.toList

instance (type : String) : Decidable (ListedType type) :=
  decidable_of_iff (KeyPart type ∧ [',', '(', ')'].all fun c => !type.toList.contains c)
    ⟨fun ⟨part, unlisted⟩ => ⟨part, by simpa using unlisted⟩, fun ⟨part, unlisted⟩ => ⟨part, by simpa using unlisted⟩⟩

section types

variable {types : List String}

theorem displayAll_cons_cons (type next : String) (types : List String) :
    (Ty.displayAll ((type :: next :: types).map .named)).toList =
      type.toList ++ ',' :: ' ' :: (Ty.displayAll ((next :: types).map .named)).toList := by
  simp [Ty.displayAll, Ty.display]

/-- The separators of a list of types are a comma and a blank. -/
theorem mem_displayAll {c : Char} (hc : c ∈ (Ty.displayAll (types.map .named)).toList) :
    (∃ type ∈ types, c ∈ type.toList) ∨ c = ',' ∨ c = ' ' := by
  induction types with
  | nil => simp [Ty.displayAll] at hc
  | cons type types ih =>
    rcases types with _ | ⟨next, types⟩
    · exact .inl ⟨type, by simp, by simpa [Ty.displayAll, Ty.display] using hc⟩
    · rw [displayAll_cons_cons] at hc
      rcases List.mem_append.1 hc with first | hc
      · exact .inl ⟨type, by simp, first⟩
      · rcases List.mem_cons.1 hc with rfl | hc
        · exact .inr (.inl rfl)
        · rcases List.mem_cons.1 hc with rfl | hc
          · exact .inr (.inr rfl)
          · exact (ih hc).imp_left fun ⟨t, ht, inside⟩ => ⟨t, List.mem_cons_of_mem _ ht, inside⟩

/-- Between commas stand the types, up to the blanks in front of them. -/
theorem piecesAt_displayAll (nonempty : types ≠ []) (h : ∀ type ∈ types, ListedType type) :
    (piecesAt ',' (Ty.displayAll (types.map .named)).toList).map trim = types.map String.toList := by
  induction types with
  | nil => exact absurd rfl nonempty
  | cons type types ih =>
    have comma : ',' ∉ type.toList := (h type (by simp)).unlisted ',' (by simp)
    have first : (piecesAt ',' type.toList).map trim = [type.toList] := by
      rw [piecesAt_of_not_mem comma, List.map_singleton, (h type (by simp)).trimmed]
    rcases types with _ | ⟨next, types⟩
    · simpa [Ty.displayAll, Ty.display] using first
    · obtain ⟨p, ps, hp, blank⟩ := exists_piecesAt_cons (by decide : ' ' ≠ ',')
        (Ty.displayAll ((next :: types).map .named)).toList
      have rest := ih (by simp) fun type ht => h type (List.mem_cons_of_mem _ ht)
      rw [hp, List.map_cons] at rest
      rw [displayAll_cons_cons, piecesAt_append_cons, List.map_append, first, blank, List.map_cons, trim_cons (by decide),
        rest]
      rfl

theorem withoutParens_enclosed (cs : List Char) : PropertyFact.withoutParens ('(' :: (cs ++ [')'])) = cs := by
  simp [PropertyFact.withoutParens]

theorem withoutParens_of_not_mem {cs : List Char} (h : '(' ∉ cs) : PropertyFact.withoutParens cs = cs := by
  unfold PropertyFact.withoutParens
  split
  · simp at h
  · rfl

theorem toList_display_tuple (types : List String) :
    (Ty.tuple (types.map .named)).display.toList = '(' :: ((Ty.displayAll (types.map .named)).toList ++ [')']) := by
  simp [Ty.display]

/-- A list of types in parentheses can be a parameter as its types can. -/
theorem keyPart_display_tuple (h : ∀ type ∈ types, KeyPart type) : KeyPart (Ty.tuple (types.map .named)).display where
  nonempty := by simp [Ty.display]
  trimmed := by
    rw [toList_display_tuple, trim_eq_self_iff, ← List.cons_append, List.getLast?_concat, List.cons_append]
    simp only [List.head?_cons, Option.mem_some_iff, forall_eq']
    decide
  unmarked := by
    intro c hc inside
    rw [toList_display_tuple, List.mem_cons, List.mem_append, List.mem_singleton] at inside
    rcases inside with rfl | inside | rfl
    · simp at hc
    · rcases mem_displayAll inside with ⟨t, ht, inside⟩ | rfl | rfl
      · exact (h t ht).unmarked c hc inside
      · simp at hc
      · simp at hc
    · simp at hc

/-- One type stands alone, several stand in parentheses. -/
theorem exists_parameterOf (nonempty : types ≠ []) (h : ∀ type ∈ types, ListedType type) :
    ∃ p, parameterOf types = some p ∧ KeyPart p ∧
      PropertyFact.withoutParens p.toList = (Ty.displayAll (types.map .named)).toList := by
  rcases types with _ | ⟨type, _ | ⟨next, types⟩⟩
  · exact absurd rfl nonempty
  · have listed := h type (by simp)
    refine ⟨type, rfl, listed.toKeyPart, ?_⟩
    rw [withoutParens_of_not_mem (listed.unlisted '(' (by simp))]
    simp [Ty.displayAll, Ty.display]
  · refine ⟨_, rfl, keyPart_display_tuple fun t ht => (h t ht).toKeyPart, ?_⟩
    rw [toList_display_tuple, withoutParens_enclosed]

theorem keyPart_parameterOf (h : ∀ type ∈ types, ListedType type) : ∀ p ∈ parameterOf types, KeyPart p := by
  by_cases nonempty : types = []
  · subst nonempty
    nofun
  · obtain ⟨p, hp, part, -⟩ := exists_parameterOf nonempty h
    simpa [hp] using part

/-- The types of a parameter are read back from the key. -/
theorem PropertyFact.Keyed.parameterTypes_eq {f : PropertyFact} {name : String} {owner : Option String}
    (h : f.Keyed name (parameterOf types) owner) (plain : ¬ " of".toList <:+ name.toList)
    (listed : ∀ type ∈ types, ListedType type) : f.parameterTypes = types := by
  by_cases nonempty : types = []
  · subst nonempty
    exact h.parameterTypes_none
  · obtain ⟨p, hp, -, inner⟩ := exists_parameterOf nonempty listed
    rw [hp] at h
    have kept : (types.map String.toList).filter (fun p => !p.isEmpty) = types.map String.toList := by
      refine List.filter_eq_self.2 fun cs hcs => ?_
      obtain ⟨type, ht, rfl⟩ := List.mem_map.1 hcs
      simpa using (listed type ht).nonempty
    rw [h.parameterTypes_some plain, inner, piecesAt_displayAll nonempty listed, kept, List.map_map]
    simp [Function.comp_def]

end types

end InventoryQuery
