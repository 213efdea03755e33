import InventoryQuery.Proofs.Json.Structure

/-! A catalog is read back from what is written for it, whatever its strings contain. Reading fills
in names and keys, so a catalog that has been read comes back unchanged. -/

namespace InventoryQuery

open Json (Reader Written Takes bytes)

section maps

variable {α : Type}

theorem OrderedMap.mapValues_again {f : String → α → α} (settled : ∀ k a, f k (f k a) = f k a) (m : OrderedMap String α) :
    (m.mapValues f).mapValues f = m.mapValues f := by
  apply ext
  simp only [mapValues, List.map_map, Function.comp_def, settled]

theorem OrderedMap.upsertEntry_new {k : String} {f : Option α → α} {es : List (String × α)} (new : k ∉ es.map Prod.fst) :
    upsertEntry k f es = es ++ [(k, f none)] := by
  induction es with
  | nil => rfl
  | cons e es ih =>
    rw [List.map_cons, List.mem_cons, not_or] at new
    rw [upsertEntry, if_neg (Ne.symm new.1), ih new.2, List.cons_append]

def entryMember (value : Reader α) (key : String) (m : OrderedMap String α) : Reader (OrderedMap String α) := do
  Json.expect (Json.ascii ':')
  let a ← value
  pure (m.insert key a)

/-- Each key is new when its entry is read, so the entry goes to the end. -/
theorem takes_entries {value : Reader α} {write : α → String} (h : ∀ a, Written value (write a) a)
    {es : List (String × α)} {m n : OrderedMap String α} (whole : n.entries = m.entries ++ es) :
    Takes (entryMember value) (es.map fun e => (e.1, write e.2)) m n := by
  induction es generalizing m with
  | nil =>
    obtain rfl : n = m := OrderedMap.ext (by rw [whole, List.append_nil])
    exact .done n
  | cons e es ih =>
    have new : e.1 ∉ m.entries.map Prod.fst := by
      have distinct := n.distinct
      rw [whole, List.map_append, List.map_cons, List.nodup_append] at distinct
      exact fun old => distinct.2.2 e.1 old e.1 List.mem_cons_self rfl
    have grown : (m.insert e.1 e.2).entries = m.entries ++ [e] := OrderedMap.upsertEntry_new new
    have later : Takes (entryMember value) (es.map fun e => (e.1, write e.2)) (m.insert e.1 e.2) n :=
      ih (by rw [whole, grown, List.append_assoc, List.singleton_append])
    refine .next (fun rest => ?_) later
    exact (Json.reads_expect (by decide) _).bind (((h e.2).reads rest).bind (.pure _ _))

theorem written_map {value : Reader α} {write : α → String} (h : ∀ a, Written value (write a) a)
    (m : OrderedMap String α) : Written (readMap value) (writeMap write m) m where
  reads rest := by
    have entries : Takes (entryMember value) (m.entries.map fun e => (e.1, write e.2)) .empty m :=
      takes_entries h (List.nil_append _).symm
    rw [writeMap, Json.bytes_writeObject, List.cons_append, List.append_assoc, List.singleton_append]
    refine (Json.reads_peekToken (by decide) _).bind ?_
    rw [if_pos rfl]
    exact (Json.reads_advance _ _).bind (entries.reads_members rest)
  opens := ⟨_, _, Json.bytes_writeObject _, by decide, by decide, by decide⟩

end maps

theorem Availability.written (a : Availability) : Written read a.write a :=
  written_map (fun _ => Json.written_array fun _ _ => Json.written_string _) a

theorem TypeFact.written (f : TypeFact) : Written read f.write f := by
  refine Json.written_record ?_ (by decide) (fun _ mem => absurd mem List.not_mem_nil)
  rw [List.append_assoc, List.singleton_append]
  refine .written (Json.written_string f.name) rfl ?_
  refine .optional rfl rfl ?_
  exact .written (Availability.written f.availability) rfl (.done f)

theorem PropertyFact.written (f : PropertyFact) : Written read f.write f := by
  refine Json.written_record ?_ (by decide) (by simp)
  simp only [List.append_assoc, List.cons_append, List.nil_append]
  refine .written (Json.written_string f.key) rfl ?_
  refine .optional rfl rfl (.optional rfl rfl (.optional rfl rfl (.optional rfl rfl ?_)))
  refine .written (Json.written_string f.resultType) rfl ?_
  refine .written (Availability.written f.availability) rfl ?_
  rw [← List.append_nil (optionalMember _ _)]
  exact .optional rfl rfl (.done f)

namespace Catalog

theorem written (c : Catalog) : Written read c.write c := by
  refine Json.written_record ?_ (by decide) (fun _ mem => absurd mem List.not_mem_nil)
  refine .written (written_map TypeFact.written c.types) rfl ?_
  exact .written (written_map PropertyFact.written c.properties) rfl (.done c)

theorem ofText_write (c : Catalog) : ofText c.write = .ok c.normalized := by
  have whole : read (bytes c.write) = .ok c [] := by
    have read := c.written.reads []
    rwa [List.append_nil] at read
  change ofBytes (bytes c.write) = _
  rw [ofBytes, Json.document, whole]
  rfl

theorem normalized_normalized (c : Catalog) : c.normalized.normalized = c.normalized := by
  unfold normalized
  dsimp only
  rw [OrderedMap.mapValues_again, OrderedMap.mapValues_again]
  · intro key f
    by_cases h : f.key = "" <;> simp [h]
  · intro name f
    by_cases h : f.name = "" <;> simp [h]

theorem normalized_of_ofText {text : String} {c : Catalog} (h : ofText text = .ok c) : c.normalized = c := by
  unfold ofText ofBytes at h
  split at h
  · obtain rfl := Except.ok.inj h
    exact normalized_normalized _
  · exact absurd h (by simp)

/-- Any catalog is read back with its names and keys filled in, and one that was read is read back
as it is. -/
theorem round_trip :
    (∀ c : Catalog, ofText c.write = .ok c.normalized) ∧
      ∀ (text : String) (c : Catalog), ofText text = .ok c → ofText c.write = .ok c := by
  refine ⟨ofText_write, fun text c loaded => ?_⟩
  rw [ofText_write, normalized_of_ofText loaded]

/-- The key is filled in, and escapes are written otherwise than they were read. -/
theorem round_trip_filled :
    let text := "\x7b\"properties\": \x7b\"b: \\u00e9\\n\": \x7b\"resultType\": \"\\ud83d\\ude00\", " ++
      "\"availability\": \x7b\"9.5\": [\"mac\", \"win\"], \"9\": []\x7d\x7d\x7d\x7d"
    let available : Availability := .ofList [("9.5", ["mac", "win"]), ("9", [])]
    let f : PropertyFact := { PropertyFact.bare with key := "b: é\n", resultType := "😀", availability := available }
    let c : Catalog := ⟨.empty, .ofList [("b: é\n", f)]⟩
    ofText text = .ok c ∧ ofText c.write = .ok c := by
  intro text available f c
  have loaded : ofText text = .ok c := rfl
  exact ⟨loaded, round_trip.2 text c loaded⟩

end Catalog

end InventoryQuery
