/-! A map that remembers the order in which its keys first came. Writing to a key that is there
keeps its place. -/

namespace InventoryQuery

structure OrderedMap (κ α : Type) where
  entries : List (κ × α)
  distinct : (entries.map Prod.fst).Nodup

namespace OrderedMap

variable {κ α β : Type}

instance : Inhabited (OrderedMap κ α) := ⟨⟨[], .nil⟩⟩

instance [DecidableEq κ] [DecidableEq α] : DecidableEq (OrderedMap κ α) := fun m n =>
  if h : m.entries = n.entries then isTrue (by cases m; cases n; cases h; rfl)
  else isFalse fun e => h (congrArg entries e)

theorem ext {m n : OrderedMap κ α} (h : m.entries = n.entries) : m = n := by cases m; cases n; cases h; rfl

def empty : OrderedMap κ α := ⟨[], .nil⟩

def keys (m : OrderedMap κ α) : List κ := m.entries.map Prod.fst

def values (m : OrderedMap κ α) : List α := m.entries.map Prod.snd

def size (m : OrderedMap κ α) : Nat := m.entries.length

def mapValues (f : κ → α → β) (m : OrderedMap κ α) : OrderedMap κ β :=
  ⟨m.entries.map fun e => (e.1, f e.1 e.2), by
    simpa [List.map_map, Function.comp_def] using m.distinct⟩

section lookup

variable [DecidableEq κ]

def get? (m : OrderedMap κ α) (k : κ) : Option α := (m.entries.find? (·.1 = k)).map Prod.snd

def upsertEntry (k : κ) (f : Option α → α) : List (κ × α) → List (κ × α)
  | [] => [(k, f none)]
  | e :: es => if e.1 = k then (e.1, f (some e.2)) :: es else e :: upsertEntry k f es

theorem keys_upsertEntry (k : κ) (f : Option α → α) (es : List (κ × α)) :
    (upsertEntry k f es).map Prod.fst = if k ∈ es.map Prod.fst then es.map Prod.fst else es.map Prod.fst ++ [k] := by
  induction es with
  | nil => rfl
  | cons e es ih =>
    by_cases h : e.1 = k
    · simp [upsertEntry, h]
    · have h' : ¬ k = e.1 := fun he => h he.symm
      by_cases hm : k ∈ es.map Prod.fst <;> simp only [upsertEntry, h, if_false, List.map_cons, ih, hm, List.mem_cons, h',
        false_or, if_true, List.cons_append]

theorem nodup_upsertEntry {k : κ} {f : Option α → α} {es : List (κ × α)} (h : (es.map Prod.fst).Nodup) :
    ((upsertEntry k f es).map Prod.fst).Nodup := by
  rw [keys_upsertEntry]
  split
  · exact h
  · rename_i hk
    rw [List.nodup_append]
    exact ⟨h, by simp, fun a ha b hb => by rintro rfl; exact hk ((List.mem_singleton.1 hb) ▸ ha)⟩

def upsert (m : OrderedMap κ α) (k : κ) (f : Option α → α) : OrderedMap κ α :=
  ⟨upsertEntry k f m.entries, nodup_upsertEntry m.distinct⟩

def insert (m : OrderedMap κ α) (k : κ) (a : α) : OrderedMap κ α := m.upsert k fun _ => a

def ofList (es : List (κ × α)) : OrderedMap κ α := es.foldl (fun m e => m.insert e.1 e.2) empty

theorem find?_upsertEntry (k j : κ) (f : Option α → α) (es : List (κ × α)) :
    ((upsertEntry k f es).find? (·.1 = j)).map Prod.snd =
      if j = k then some (f ((es.find? (·.1 = k)).map Prod.snd)) else (es.find? (·.1 = j)).map Prod.snd := by
  induction es with
  | nil => by_cases h : j = k <;> simp [upsertEntry, h, eq_comm]
  | cons e es ih =>
    by_cases he : e.1 = k
    · by_cases h : j = k
      · simp [upsertEntry, he, h]
      · have : ¬ k = j := fun h' => h h'.symm
        simp [upsertEntry, he, h, this]
    · by_cases hj : e.1 = j
      · have : ¬ j = k := fun h' => he (hj.trans h')
        simp [upsertEntry, hj, this]
      · simp [upsertEntry, he, hj, ih]

theorem get?_upsert (m : OrderedMap κ α) (k j : κ) (f : Option α → α) :
    (m.upsert k f).get? j = if j = k then some (f (m.get? k)) else m.get? j :=
  find?_upsertEntry k j f m.entries

theorem get?_insert (m : OrderedMap κ α) (k j : κ) (a : α) :
    (m.insert k a).get? j = if j = k then some a else m.get? j := get?_upsert ..

theorem keys_upsert (m : OrderedMap κ α) (k : κ) (f : Option α → α) :
    (m.upsert k f).keys = if k ∈ m.keys then m.keys else m.keys ++ [k] := keys_upsertEntry k f m.entries

end lookup

end OrderedMap

end InventoryQuery
