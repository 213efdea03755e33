import InventoryQuery.Proofs.Catalog.Heading
import InventoryQuery.Proofs.Cursor.Offering

/-! What a fact is offered as, by the parts of its key. The label ends where ` of ` first stands in the
key, which is before the owner unless the name or the parameter holds it too. Labels that are cut there
tell names and parameters apart, and so no fact keeps another one out. What the snippet leaves open goes
by the number of types that the parameter takes. -/

namespace InventoryQuery.Cursor

/-- Before the owner, `of` does not stand between two blanks. -/
structure Undivided (name : String) (param owner : Option String) : Prop where
  inName : ¬ " of ".toList <:+: name.toList
  inParam : ∀ p ∈ param, ¬ " of ".toList <:+: p.toList
  behindName : param.isSome ∨ owner.isSome → ¬ " of".toList <:+ name.toList

theorem infix_blank_iff (cs : List Char) :
    " of ".toList <:+: cs ++ [' '] ↔ " of ".toList <:+: cs ∨ " of".toList <:+ cs := by
  have sep : " of ".toList = " of".toList ++ [' '] := rfl
  rw [sep, infix_concat_self_iff]

theorem infix_of_iff (cs : List Char) :
    " of ".toList <:+: cs ++ " of".toList ↔ " of ".toList <:+: cs ∨ " of".toList <:+ cs := by
  have split : cs ++ " of".toList = cs ++ [' '] ++ ['o'] ++ ['f'] := by simp
  have sep : " of ".toList = " of".toList ++ [' '] := rfl
  rw [split, ← infix_blank_iff, sep, infix_concat_of_ne (by decide), infix_concat_of_ne (by decide)]

theorem not_undivided_iff (name : String) (param owner : Option String) :
    ¬ Undivided name param owner ↔ " of ".toList <:+: name.toList ∨ (∃ p ∈ param, " of ".toList <:+: p.toList) ∨
      (param.isSome ∨ owner.isSome) ∧ " of".toList <:+ name.toList := by
  constructor
  · intro divided
    by_contra whole
    push Not at whole
    exact divided ⟨whole.1, whole.2.1, whole.2.2⟩
  · rintro (inside | ⟨p, hp, inside⟩ | ⟨applied, ends⟩) ⟨inName, inParam, behindName⟩
    · exact inName inside
    · exact inParam p hp inside
    · exact behindName applied ends

/-- A separator that begins before the owner ends there too, or with the blank in front of ` of`. -/
theorem infix_key_iff (name : String) (param owner : Option String) :
    " of ".toList <:+: (lookupKey name param none).toList ++ (ownerSuffix owner).take (" of ".toList.length - 1) ↔
      ¬ Undivided name param owner := by
  have short : ¬ " of ".toList <:+: (ownerSuffix owner).take (" of ".toList.length - 1) := by
    intro inside
    have longer : 4 ≤ min 3 (ownerSuffix owner).length := by simpa using inside.length_le
    omega
  rw [not_undivided_iff]
  rcases param with _ | p
  · have key : (lookupKey name none none).toList = name.toList := by simp [lookupKey]
    rw [key]
    rcases owner with _ | o
    · simp [ownerSuffix]
    · have rest : (ownerSuffix (some o)).take (" of ".toList.length - 1) = " of".toList := by simp [ownerSuffix]
      rw [rest, infix_of_iff]
      simp
  · have key : (lookupKey name (some p) none).toList ++ (ownerSuffix owner).take (" of ".toList.length - 1) =
        (name.toList ++ [' ']) ++ '<' :: (p.toList ++ '>' :: (ownerSuffix owner).take (" of ".toList.length - 1)) := by
      simp [lookupKey]
    have opened : '<' ∉ " of ".toList := by decide
    have closed : '>' ∉ " of ".toList := by decide
    rw [key, infix_append_cons_iff opened (by simp), infix_append_cons_iff closed (by simp), infix_blank_iff,
      or_iff_left short]
    simp [or_assoc, or_comm]

variable {f g : PropertyFact} {name name' : String} {param param' owner owner' : Option String}

theorem label_eq_iff (h : f.Keyed name param owner) : label f = lookupKey name param none ↔ Undivided name param owner := by
  have begins : ownerSuffix owner = [] ∨ " of ".toList <+: ownerSuffix owner :=
    (ownerSuffix_cases owner).imp_right fun bracket => .trans ⟨['<'], by simp⟩ bracket
  rw [label, ← String.toList_inj, String.toList_ofList, h.indexKeyChars_eq, toList_lookupKey_owner,
    upTo_append_eq_iff (by simp) begins, infix_key_iff, not_not]

theorem label_inj (hf : f.Keyed name param owner) (hg : g.Keyed name' param' owner') (cut : Undivided name param owner)
    (cut' : Undivided name' param' owner') : label f = label g ↔ name = name' ∧ param = param' := by
  rw [(label_eq_iff hf).2 cut, (label_eq_iff hg).2 cut']
  constructor
  · exact lookupKey_none_inj hf.namePart.unbracketed hg.namePart.unbracketed (fun p hp => (hf.paramPart p hp).unbracketed)
      fun p hp => (hg.paramPart p hp).unbracketed
  · rintro ⟨rfl, rfl⟩
    rfl

/-- A fact is offered under its label unless one before it has the label. -/
theorem exists_completion {before behind : List PropertyFact} (singular : f.singular.isSome)
    (new : ∀ g ∈ before, g.singular.isSome → label f ≠ label g) :
    ∃ c ∈ completionsOf (before ++ f :: behind), ∃ d, completionOf? f = some d ∧ c = { d with priority := c.priority } ∧
      c.label = label f := by
  obtain ⟨places, lists⟩ := exists_lists (before ++ f :: behind)
  have bare : ∀ g ∈ before, label g = label f → g.singular = none := by
    intro g hg same
    by_contra offered
    exact new g hg (Option.isSome_iff_ne_none.2 offered) same.symm
  obtain ⟨c, hc, d, hd, same⟩ := lists.not_hidden rfl singular bare
  obtain ⟨d', hd', labelled, -⟩ := completionOf?_of_singular singular
  obtain rfl : d' = d := Option.some.inj (hd'.symm.trans hd)
  exact ⟨c, hc, d', hd, same, by rw [same, labelled]⟩

/-- The label is the key without its owner just where `of` stands nowhere else. Facts with such labels
share one only with their name and parameter, so that each is offered if none before it has both. -/
theorem label_without_owner (h : f.Keyed name param owner) :
    (label f = lookupKey name param none ↔ Undivided name param owner) ∧
    (Undivided name param owner →
      (∀ g name' param' owner', g.Keyed name' param' owner' → Undivided name' param' owner' →
        (label f = label g ↔ name = name' ∧ param = param')) ∧
      ∀ (p : Prediction) (ix : Index) (ty : Ty) (before behind : List PropertyFact), p.markedType ix = some (.ok ty) →
        ty.properties ix = before ++ f :: behind → f.singular.isSome →
        (∀ g ∈ before, g.singular.isSome → ∃ name' param' owner', g.Keyed name' param' owner' ∧
          Undivided name' param' owner' ∧ ¬ (name = name' ∧ param = param')) →
        ∃ c ∈ p.completions ix, ∃ d, completionOf? f = some d ∧ c = { d with priority := c.priority } ∧
          c.label = lookupKey name param none) := by
  refine ⟨label_eq_iff h, fun cut => ⟨fun g name' param' owner' hg cut' => label_inj h hg cut cut', ?_⟩⟩
  intro p ix ty before behind marked facts singular others
  have eq : p.completions ix = completionsOf (before ++ f :: behind) := by rw [Prediction.completions, marked, ← facts]
  rw [eq, ← (label_eq_iff h).2 cut]
  refine exists_completion singular fun g hg offered same => ?_
  obtain ⟨name', param', owner', keyed, cut', differ⟩ := others g hg offered
  exact differ ((label_inj h keyed cut cut').1 same)

theorem label_without_owner_line :
    let fact (key name : String) (owner : Option String) (result : String) : PropertyFact :=
      { PropertyFact.bare with key := key, singular := some name, owner := owner, resultType := result }
    let line := fact "line of <file>: string" "line" (some "file") "string"
    let numbered := fact "line <office number> of <file>: file: line" "line" (some "file") "line"
    let file := fact "file: file" "file" none "file"
    let ix := Index.build ⟨.empty, .ofList ([line, numbered, file].map fun f => (f.key, f))⟩ .everything
    let p := predict .standard " of file".toList 0
    numbered.Keyed "line" (some "office number") (some "file") ∧ line.Keyed "line" none (some "file") ∧
      Undivided "line" (some "office number") (some "file") ∧ Undivided "line" none (some "file") ∧
      (Ty.named "file").properties ix = [line, numbered] ∧ label numbered = "line <office number>" ∧
      label numbered ≠ label line ∧
      ∃ c ∈ p.completions ix, ∃ d, completionOf? numbered = some d ∧ c = { d with priority := c.priority } ∧
        c.label = "line <office number>" := by
  intro fact line numbered file ix p
  have keyed : numbered.Keyed "line" (some "office number") (some "file") :=
    ⟨by decide, by simp; decide, by simp; decide, "file: line", by decide +kernel⟩
  have plain : line.Keyed "line" none (some "file") := ⟨by decide, by simp, by simp; decide, "string", by decide +kernel⟩
  have cut : Undivided "line" (some "office number") (some "file") := ⟨by decide, by simp; decide, by decide⟩
  have cut' : Undivided "line" none (some "file") := ⟨by decide, by simp, by decide⟩
  have marked : p.markedType ix = some (.ok (.named "file")) := by
    have named : (p.markedType ix).map (Except.map Ty.name?) = some (.ok (some "file")) := by decide +kernel
    rcases eq : p.markedType ix with _ | _ | name | _ | _ <;> simp_all [Except.map, Ty.name?]
  have facts : (Ty.named "file").properties ix = [line] ++ numbered :: [] := by decide +kernel
  obtain ⟨labelled, law⟩ := label_without_owner keyed
  obtain ⟨apart, offered⟩ := law cut
  have others : ∀ g ∈ [line], g.singular.isSome → ∃ name' param' owner', g.Keyed name' param' owner' ∧
      Undivided name' param' owner' ∧ ¬ ("line" = name' ∧ some "office number" = param') := by
    intro g hg singular
    obtain rfl := List.mem_singleton.1 hg
    exact ⟨"line", none, some "file", plain, cut', by simp⟩
  have key : lookupKey "line" (some "office number") none = "line <office number>" := by decide +kernel
  refine ⟨keyed, plain, cut, cut', facts, (labelled.2 cut).trans key, ?_,
    key ▸ offered p ix (.named "file") [line] [] marked facts rfl others⟩
  intro same
  simpa using ((apart line _ _ _ plain cut').1 same).2

/-- A parameter that holds `of` is cut in two, and with it goes what tells two facts of one owner
apart. -/
theorem label_within_parameter :
    let fact (key : String) : PropertyFact :=
      { PropertyFact.bare with key := key, singular := some "weekday", owner := some "date", resultType := "integer" }
    let week := fact "weekday <day of week> of <date>: integer"
    let month := fact "weekday <day of month> of <date>: integer"
    week.Keyed "weekday" (some "day of week") (some "date") ∧ month.Keyed "weekday" (some "day of month") (some "date") ∧
      lookupKey "weekday" (some "day of week") none = "weekday <day of week>" ∧ label week = "weekday <day" ∧
      label month = label week ∧ (completionsOf [week, month]).map (·.label) = ["weekday <day"] := by
  intro fact week month
  have inWeek : week.Keyed "weekday" (some "day of week") (some "date") :=
    ⟨by decide, by simp; decide, by simp; decide, "integer", by decide +kernel⟩
  have inMonth : month.Keyed "weekday" (some "day of month") (some "date") :=
    ⟨by decide, by simp; decide, by simp; decide, "integer", by decide +kernel⟩
  exact ⟨inWeek, inMonth, by decide +kernel, by decide +kernel, by decide +kernel, by decide +kernel⟩

/-- A name of which no word is `of` does not end in that word. -/
theorem not_suffix_of_words {name : List Char} (h : "of".toList ∉ piecesAt ' ' name) : ¬ " of".toList <:+ name := by
  rintro ⟨front, rfl⟩
  have last : piecesAt ' ' (front ++ " of".toList) = piecesAt ' ' front ++ ["of".toList] := piecesAt_append_cons ..
  exact h (last ▸ List.mem_append_right _ List.mem_cons_self)

/-- The types of the parameter are read back from the key, and the snippet has a place for them: none,
one, or one of several. -/
theorem parameterTypes_of_key (f : PropertyFact) (name : String) (types : List String) (owner : Option String)
    (result : String) (namePart : KeyPart name) (worded : "of".toList ∉ piecesAt ' ' name.toList)
    (ownerPart : ∀ o ∈ owner, KeyPart o) (listed : ∀ type ∈ types, ListedType type)
    (key : f.key = lookupKey name (parameterOf types) owner ++ ": " ++ result) :
    let phrase := (f.plural.or f.singular).getD (label f)
    f.parameterTypes = types ∧ (types.length = 0 → snippet f = phrase) ∧
      (types.length = 1 → snippet f = phrase ++ if types = ["string"] then " \"$0\"" else " $0") ∧
      (2 ≤ types.length → snippet f = phrase ++ " ($0, )") := by
  intro phrase
  have keyed : f.Keyed name (parameterOf types) owner := ⟨namePart, keyPart_parameterOf listed, ownerPart, result, key⟩
  have back : f.parameterTypes = types := keyed.parameterTypes_eq (not_suffix_of_words worded) listed
  refine ⟨back, ?_⟩
  rw [snippet, back]
  rcases types with _ | ⟨type, _ | ⟨next, types⟩⟩
  · exact ⟨fun _ => rfl, nofun, fun long => absurd long (by simp)⟩
  · refine ⟨nofun, fun _ => ?_, fun long => absurd long (by simp)⟩
    by_cases string : type = "string" <;> simp [string, phrase]
  · exact ⟨nofun, fun one => by simp at one, fun _ => rfl⟩

theorem parameterTypes_of_key_tuple :
    let f : PropertyFact :=
      { PropertyFact.bare with
        key := "setting <(day of week, string)> of <client of office>: setting: <x>", plural := some "settings" }
    KeyPart "setting" ∧ "of".toList ∉ piecesAt ' ' "setting".toList ∧ KeyPart "client of office" ∧
      (∀ type ∈ ["day of week", "string"], ListedType type) ∧ f.parameterTypes = ["day of week", "string"] ∧
      snippet f = "settings ($0, )" := by
  intro f
  have namePart : KeyPart "setting" := by decide
  have ownerPart : KeyPart "client of office" := by decide
  have listed : ∀ type ∈ ["day of week", "string"], ListedType type := by decide
  have law := parameterTypes_of_key f "setting" ["day of week", "string"] (some "client of office") "setting: <x>" namePart
    (by decide) (by simpa using ownerPart) listed (by simp [parameterOf, Ty.display, Ty.displayAll, lookupKey, f])
  exact ⟨namePart, by decide, ownerPart, listed, law.1, law.2.2.2 (by simp)⟩

end InventoryQuery.Cursor
