import InventoryQuery.Proofs.Catalog.Singular
import InventoryQuery.Proofs.Text.Cutting

/-! A property that is listed for a type is found on that type. Lists go by owner and lookups by key,
so what carries the comparison is that a key determines name, parameter and owner. Where a type has
several facts of one name and parameter, the list begins with the first and the lookup finds the
last. -/

namespace InventoryQuery

def Unbracketed (s : String) : Prop := '<' ∉ s.toList ∧ '>' ∉ s.toList

instance (s : String) : Decidable (Unbracketed s) := inferInstanceAs (Decidable (_ ∧ _))

def beforeBracket (name : String) (params owner : Option String) : List Char :=
  match params, owner with
  | some _, _ => name.toList ++ [' ']
  | none, some _ => name.toList ++ " of ".toList
  | none, none => name.toList

def fromBracket : (params owner : Option String) → List Char
  | some p, some o => '<' :: (p.toList ++ '>' :: (" of <".toList ++ o.toList ++ ['>']))
  | some p, none => '<' :: (p.toList ++ ['>'])
  | none, some o => '<' :: (o.toList ++ ['>'])
  | none, none => []

theorem toList_lookupKey (name : String) (params owner : Option String) :
    (lookupKey name params owner).toList = beforeBracket name params owner ++ fromBracket params owner := by
  rcases params with _ | p <;> rcases owner with _ | o <;> simp [lookupKey, beforeBracket, fromBracket]

theorem open_not_mem_beforeBracket {name : String} (h : Unbracketed name) (params owner : Option String) :
    ∀ c ∈ beforeBracket name params owner, c ≠ '<' := by
  rintro c hc rfl
  rcases params with _ | p <;> rcases owner with _ | o <;> simp [beforeBracket, h.1] at hc

theorem head?_fromBracket (params owner : Option String) : ∀ c ∈ (fromBracket params owner).head?, c = '<' := by
  rcases params with _ | p <;> rcases owner with _ | o <;> simp [fromBracket]

section key

variable {name name' : String} {params params' owner owner' : Option String}

theorem fromBracket_inj (hp : ∀ p ∈ params, Unbracketed p) (hp' : ∀ p ∈ params', Unbracketed p)
    (same : params.isSome = params'.isSome) (h : fromBracket params owner = fromBracket params' owner') :
    params = params' ∧ owner = owner' := by
  rcases params with _ | p <;> rcases params' with _ | p'
  · rcases owner with _ | o <;> rcases owner' with _ | o' <;> simp [fromBracket, String.toList_inj] at h ⊢
    exact h
  · cases same
  · cases same
  · -- the parameter ends at the first closing bracket
    have ends : ∃ rest rest', p.toList ++ '>' :: rest = p'.toList ++ '>' :: rest' ∧
        (rest = rest' → owner = owner') := by
      rcases owner with _ | o <;> rcases owner' with _ | o' <;>
        refine ⟨_, _, (List.cons.inj h).2, ?_⟩ <;> simp [String.toList_inj]
    obtain ⟨rest, rest', split, owners⟩ := ends
    obtain ⟨param, rests⟩ := run_append_inj (p := (· ≠ '>'))
      (by rintro c hc; simpa using fun e : c = '>' => (hp p rfl).2 (e ▸ hc))
      (by rintro c hc; simpa using fun e : c = '>' => (hp' p' rfl).2 (e ▸ hc)) (by simp) (by simp) split
    exact ⟨congrArg some (String.toList_inj.1 param), owners (List.cons.inj rests).2⟩

theorem eq_append_of {name name' : String} (h : name.toList ++ " of ".toList = name'.toList ++ [' ']) :
    name' = name ++ " of" := by
  have split : name.toList ++ " of ".toList = (name ++ " of").toList ++ [' '] := by simp
  exact String.toList_inj.1 (List.append_cancel_right (split ▸ h)).symm

theorem bracket_inj (hn : Unbracketed name) (hn' : Unbracketed name')
    (h : lookupKey name params owner = lookupKey name' params' owner') :
    beforeBracket name params owner = beforeBracket name' params' owner' ∧
      fromBracket params owner = fromBracket params' owner' := by
  have split := congrArg String.toList h
  rw [toList_lookupKey, toList_lookupKey] at split
  exact run_append_inj (p := (· ≠ '<'))
    (by simpa using open_not_mem_beforeBracket hn params owner)
    (by simpa using open_not_mem_beforeBracket hn' params' owner')
    (by simpa using head?_fromBracket params owner) (by simpa using head?_fromBracket params' owner') split

/-- Only a name that goes on with `of` can pass its parameter off as an owner. -/
theorem lookupKey_inj (hn : Unbracketed name) (hn' : Unbracketed name') (hp : ∀ p ∈ params, Unbracketed p)
    (hp' : ∀ p ∈ params', Unbracketed p) (apart : name ≠ name' ++ " of") (apart' : name' ≠ name ++ " of")
    (h : lookupKey name params owner = lookupKey name' params' owner') :
    name = name' ∧ params = params' ∧ owner = owner' := by
  obtain ⟨before, brackets⟩ := bracket_inj hn hn' h
  have names : name = name' ∧ params.isSome = params'.isSome := by
    rcases params with _ | p <;> rcases params' with _ | p'
    · rcases owner with _ | o <;> rcases owner' with _ | o' <;>
        simp [fromBracket] at brackets <;> simpa [beforeBracket, String.toList_inj] using before
    · rcases owner with _ | o
      · rcases owner' with _ | o' <;> simp [fromBracket] at brackets
      · exact absurd (eq_append_of before) apart'
    · rcases owner' with _ | o'
      · rcases owner with _ | o <;> simp [fromBracket] at brackets
      · exact absurd (eq_append_of before.symm) apart
    · simpa [beforeBracket, String.toList_inj] using before
  exact ⟨names.1, fromBracket_inj hp hp' names.2 brackets⟩

theorem lookupKey_none_inj (hn : Unbracketed name) (hn' : Unbracketed name') (hp : ∀ p ∈ params, Unbracketed p)
    (hp' : ∀ p ∈ params', Unbracketed p) (h : lookupKey name params none = lookupKey name' params' none) :
    name = name' ∧ params = params' := by
  obtain ⟨before, brackets⟩ := bracket_inj hn hn' h
  have names : name = name' ∧ params.isSome = params'.isSome := by
    rcases params with _ | p <;> rcases params' with _ | p' <;> simp [fromBracket] at brackets <;>
      simpa [beforeBracket, String.toList_inj] using before
  exact ⟨names.1, (fromBracket_inj hp hp' names.2 brackets).1⟩

end key

/-- The headings of the indexed facts: each key is made of a name and a parameter that hold no
brackets and are no plurals, and of the owner. -/
structure Headed (c : Catalog) (filter : Filter) (name : PropertyFact → String)
    (param : PropertyFact → Option String) : Prop where
  keyed : ∀ f ∈ c.indexed filter, f.indexKey = lookupKey (name f) (param f) f.owner
  unbracketed : ∀ f ∈ c.indexed filter, Unbracketed (name f) ∧ ∀ p ∈ param f, Unbracketed p
  singular : ∀ f ∈ c.indexed filter, (Index.build c filter).singular (name f) = name f ∧
    ∀ p ∈ param f, (Index.build c filter).singular p = p

section listing

variable {c : Catalog} {filter : Filter} {name : PropertyFact → String} {param : PropertyFact → Option String}

theorem mem_indexed_of_mem_ownedBy {owner : Option String} {f : PropertyFact}
    (h : f ∈ (Index.build c filter).ownedBy owner) : f ∈ c.indexed filter := by
  rw [Index.ownedBy_build] at h
  exact List.mem_of_mem_filter h

/-- Under the key of a heading stands the last fact of the owner that has the heading. -/
theorem Headed.get?_lookupKey (h : Headed c filter name param)
    (apart : ∀ f ∈ c.indexed filter, ∀ g ∈ c.indexed filter, name f ≠ name g ++ " of")
    {f : PropertyFact} (hf : f ∈ c.indexed filter) (type : String) :
    (Index.build c filter).get? (lookupKey (name f) (param f) (some type)) =
      (((Index.build c filter).ownedBy (some type)).filter
        fun g => name g = name f ∧ param g = param f).getLast? := by
  rw [Index.get?_build, Index.ownedBy_build, List.filter_filter]
  refine congrArg List.getLast? (List.filter_congr fun g hg => ?_)
  rw [h.keyed g hg]
  by_cases same : lookupKey (name g) (param g) g.owner = lookupKey (name f) (param f) (some type)
  · obtain ⟨names, params, owners⟩ := lookupKey_inj (h.unbracketed g hg).1 (h.unbracketed f hf).1
      (h.unbracketed g hg).2 (h.unbracketed f hf).2 (apart g hg f hf) (apart f hf g hg) same
    simp [names, params, owners]
  · have differ : ¬ ((name g = name f ∧ param g = param f) ∧ g.owner = some type) := by
      rintro ⟨⟨names, params⟩, owners⟩
      exact same (by rw [names, params, owners])
    simpa [same] using differ

theorem Headed.property_eq_ok_iff (h : Headed c filter name param)
    (apart : ∀ f ∈ c.indexed filter, ∀ g ∈ c.indexed filter, name f ≠ name g ++ " of")
    {f : PropertyFact} (hf : f ∈ c.indexed filter) {type : String}
    (ht : (Index.build c filter).singular type = type) (g : PropertyFact) :
    (Index.build c filter).property type (name f) (param f) = .ok g ↔
      ((Index.build c filter).ancestry type).findSome? (fun t =>
        (((Index.build c filter).ownedBy (some t)).filter
          fun g => name g = name f ∧ param g = param f).getLast?) = some g := by
  have params : (param f).map (Index.build c filter).singular = param f := by
    rcases hp : param f with _ | p
    · rfl
    · exact congrArg some ((h.singular f hf).2 p hp)
  rw [Index.property_eq_ok_iff, ht, (h.singular f hf).1, params]
  simp only [h.get?_lookupKey apart hf]

theorem head?_eq_getLast? {α : Type} {l : List α} (h : l.length ≤ 1) : l.head? = l.getLast? := by
  rcases l with _ | ⟨a, _ | ⟨b, l⟩⟩
  · rfl
  · rfl
  · simp at h

/-- Of what is listed for a type under one heading, the nearest owner counts, and the last of its
facts. The one that is listed first is found where no owner has two. -/
theorem property_of_listed (c : Catalog) (filter : Filter) (name : PropertyFact → String)
    (param : PropertyFact → Option String) (h : Headed c filter name param)
    (apart : ∀ f ∈ c.indexed filter, ∀ g ∈ c.indexed filter, name f ≠ name g ++ " of")
    (type : String) (hw : type ≠ worldType) (ht : (Index.build c filter).singular type = type)
    (f : PropertyFact) (hf : f ∈ (Index.build c filter).allProperties type) :
    let ix := Index.build c filter
    let alike (g : PropertyFact) : Bool := name g = name f ∧ param g = param f
    ∃ g ∈ ix.allProperties type, alike g ∧ ix.property type (name f) (param f) = .ok g ∧
      (ix.ancestry type).findSome? (fun t => ((ix.ownedBy (some t)).filter alike).getLast?) = some g ∧
      ((∀ t ∈ ix.ancestry type, ((ix.ownedBy (some t)).filter alike).length ≤ 1) →
        (ix.allProperties type).find? alike = some g) := by
  intro ix alike
  have listed : ix.allProperties type = (ix.ancestry type).flatMap fun t => ix.ownedBy (some t) := by
    rw [Index.allProperties, if_neg hw, ht]
  rw [listed] at hf ⊢
  obtain ⟨t, near, owned⟩ := List.mem_flatMap.1 hf
  have some_alike : ((ix.ancestry type).findSome? fun t => ((ix.ownedBy (some t)).filter alike).getLast?).isSome := by
    rw [List.findSome?_isSome_iff]
    refine ⟨t, near, ?_⟩
    rw [List.getLast?_filter, List.find?_isSome]
    exact ⟨f, List.mem_reverse.2 owned, by simp [alike]⟩
  obtain ⟨g, found⟩ := Option.isSome_iff_exists.1 some_alike
  obtain ⟨u, hu, last⟩ := List.exists_of_findSome?_eq_some found
  have mem := List.mem_filter.1 (List.mem_of_getLast? last)
  refine ⟨g, List.mem_flatMap.2 ⟨u, hu, mem.1⟩, mem.2,
    (h.property_eq_ok_iff apart (mem_indexed_of_mem_ownedBy owned) ht g).2 found, found, fun single => ?_⟩
  have first : ∀ t ∈ ix.ancestry type, (ix.ownedBy (some t)).find? alike = ((ix.ownedBy (some t)).filter alike).getLast? := by
    intro t ht
    rw [← List.head?_filter, head?_eq_getLast? (single t ht)]
  rw [List.find?_flatMap, ← found, ← List.head?_filterMap, ← List.head?_filterMap, List.filterMap_congr first]

end listing

theorem property_of_listed_inherited :
    let fact (key singular owner result : String) : PropertyFact :=
      { PropertyFact.bare with key := key, singular := some singular, owner := some owner, resultType := result }
    let inherited := fact "name of <object>: string" "name" "object" "string"
    let own := fact "name of <file>: text" "name" "file" "text"
    let line := fact "line <number> of <file>: line" "line" "file" "line"
    let c : Catalog := ⟨.ofList [("file", ⟨"file", some "object", .empty⟩)],
      .ofList ([inherited, own, line].map fun f => (f.key, f))⟩
    let name (f : PropertyFact) := f.singular.getD ""
    let param (f : PropertyFact) := if f = line then some "number" else none
    let ix := Index.build c .everything
    Headed c .everything name param ∧
      (∀ f ∈ c.indexed .everything, ∀ g ∈ c.indexed .everything, name f ≠ name g ++ " of") ∧
      ix.singular "file" = "file" ∧ inherited ∈ ix.allProperties "file" ∧
      ∃ g ∈ ix.allProperties "file", (name g = "name" ∧ param g = none) ∧ ix.property "file" "name" none = .ok g ∧
        (ix.allProperties "file").find? (fun g => name g = "name" ∧ param g = none) = some g := by
  intro fact inherited own line c name param ix
  have headed : Headed c .everything name param :=
    ⟨by decide +kernel, by decide +kernel, by decide +kernel⟩
  have apart : ∀ f ∈ c.indexed .everything, ∀ g ∈ c.indexed .everything, name f ≠ name g ++ " of" := by decide +kernel
  have settled : ix.singular "file" = "file" := by decide +kernel
  have listed : inherited ∈ ix.allProperties "file" := by decide +kernel
  have plain : param inherited = none := by decide +kernel
  obtain ⟨g, hg, alike, found, -, first⟩ :=
    property_of_listed c .everything name param headed apart "file" (by decide) settled inherited listed
  have called : name inherited = "name" := rfl
  rw [called, plain] at found
  simp only [called, plain] at alike first
  exact ⟨headed, apart, settled, listed, g, hg, of_decide_eq_true alike, found, first (by decide +kernel)⟩

/-- Two facts that differ in the result alone, and a creation of which the name ends in `of`. -/
theorem property_of_listed_apart :
    let fact (key : String) (owner : Option String) : PropertyFact := { PropertyFact.bare with key := key, owner := owner }
    let first := fact "x of <a>: s" (some "a")
    let second := fact "x of <a>: t" (some "a")
    let creation := fact "x of <a>: u" none
    let c : Catalog := ⟨.empty, .ofList [("1", first), ("2", second)]⟩
    let d : Catalog := ⟨.empty, .ofList [("1", first), ("2", creation)]⟩
    let ofWhole (f : PropertyFact) : String × Option String := if f.owner = none then ("x of", some "a") else ("x", none)
    Headed c .everything (fun _ => "x") (fun _ => none) ∧
      (Index.build c .everything).singular "a" = "a" ∧ (Index.build c .everything).allProperties "a" = [first, second] ∧
      (Index.build c .everything).property "a" "x" none = .ok second ∧
    Headed d .everything (fun f => (ofWhole f).1) (fun f => (ofWhole f).2) ∧
      (Index.build d .everything).singular "a" = "a" ∧ (Index.build d .everything).allProperties "a" = [first] ∧
      (Index.build d .everything).property "a" "x" none = .ok creation := by
  intro fact first second creation c d ofWhole
  have shared : Headed c .everything (fun _ => "x") (fun _ => none) :=
    ⟨by decide +kernel, by decide +kernel, by decide +kernel⟩
  have ambiguous : Headed d .everything (fun f => (ofWhole f).1) (fun f => (ofWhole f).2) :=
    ⟨by decide +kernel, by decide +kernel, by decide +kernel⟩
  exact ⟨shared, by decide +kernel, by decide +kernel, by decide +kernel, ambiguous, by decide +kernel,
    by decide +kernel, by decide +kernel⟩

end InventoryQuery
