import InventoryQuery.Catalog.Document
import InventoryQuery.Proofs.Json.Text

/-! Arrays and objects read back as what they were written from. For the members of an object that
is a chain of steps, from what has been read before a member to what has been read after it; a
record takes its fields in order and leaves out some. -/

namespace InventoryQuery.Json

variable {α β ρ : Type}

/-- The text is read as `a`, whatever follows it. It starts with a byte that neither ends an array
nor is taken for `null`. -/
structure Written (read : Reader α) (text : String) (a : α) : Prop where
  reads : ∀ rest, Reads read (bytes text ++ rest) a rest
  opens : ∃ b bs, bytes text = b :: bs ∧ isBlank b = false ∧ b ≠ ascii ']' ∧ b ≠ ascii 'n'

theorem written_string (s : String) : Written string (writeString s) s where
  reads := reads_string s
  opens := ⟨quote, _, bytes_writeString s, by decide, by decide, by decide⟩

theorem Written.nullable {read : Reader α} {text : String} {a : α} (h : Written read text a) :
    Written (nullable read) text (some a) where
  reads rest := by
    obtain ⟨b, bs, begins, solid, -, null⟩ := h.opens
    have value := h.reads rest
    rw [begins] at value ⊢
    refine (reads_peekToken solid _).bind ?_
    rw [if_neg (by simpa using null)]
    exact value.map some
  opens := h.opens

theorem bytes_separated (t : String) (ts : List String) :
    bytes (",".intercalate (t :: ts)) = bytes t ++ ts.flatMap fun u => ascii ',' :: bytes u := by
  induction ts generalizing t with
  | nil => rw [String.intercalate_singleton, List.flatMap_nil, List.append_nil]
  | cons u ts ih =>
    rw [String.intercalate_cons_cons, bytes_append, bytes_append, ih, List.flatMap_cons, List.append_assoc]
    rfl

theorem reads_moreElements_end (rest : List UInt8) :
    Reads moreElements (ascii ']' :: rest) false (ascii ']' :: rest) := by
  refine (reads_peekToken (by decide) _).bind ?_
  dsimp only
  rw [if_pos rfl]
  exact .pure _ _

theorem reads_moreElements_next {b : UInt8} (solid : isBlank b = false) (more : b ≠ ascii ']') (rest : List UInt8) :
    Reads moreElements (ascii ',' :: b :: rest) true (b :: rest) := by
  refine (reads_peekToken (by decide) _).bind ?_
  dsimp only
  rw [if_neg (by decide), if_pos rfl]
  refine (reads_advance _ _).bind ((reads_peekToken solid rest).bind ?_)
  dsimp only
  rw [if_neg more]
  exact .pure _ _

def elementStep (element : Reader α) (items : List α) : Reader (Option (List α)) := do
  if ← moreElements then do
    let next ← element
    pure (some (items ++ [next]))
  else pure none

theorem repeats_elementStep {element : Reader α} {write : α → String} {xs : List α}
    (h : ∀ x ∈ xs, Written element (write x) x) (items : List α) (rest : List UInt8) :
    Repeats (elementStep element) items ((xs.flatMap fun x => ascii ',' :: bytes (write x)) ++ ascii ']' :: rest)
      (items ++ xs) (ascii ']' :: rest) := by
  induction xs generalizing items with
  | nil =>
    rw [List.flatMap_nil, List.nil_append, List.append_nil]
    exact .done ((reads_moreElements_end rest).bind (.pure _ _))
  | cons x xs ih =>
    have later : ∀ y ∈ xs, Written element (write y) y := fun y hy => h y (List.mem_cons_of_mem x hy)
    obtain ⟨b, bs, begins, solid, more, -⟩ := (h x List.mem_cons_self).opens
    have value := (h x List.mem_cons_self).reads ((xs.flatMap fun x => ascii ',' :: bytes (write x)) ++ ascii ']' :: rest)
    rw [begins] at value
    have step : Reads (elementStep element items)
        (ascii ',' :: (b :: bs ++ ((xs.flatMap fun x => ascii ',' :: bytes (write x)) ++ ascii ']' :: rest)))
        (some (items ++ [x])) ((xs.flatMap fun x => ascii ',' :: bytes (write x)) ++ ascii ']' :: rest) :=
      (reads_moreElements_next solid more _).bind (value.bind (.pure _ _))
    have tail := ih later (items ++ [x])
    rw [List.append_assoc, List.singleton_append] at tail
    rw [List.flatMap_cons, begins, List.append_assoc, List.cons_append]
    exact .next step (by simp; omega) tail

theorem written_array {element : Reader α} {write : α → String} {xs : List α}
    (h : ∀ x ∈ xs, Written element (write x) x) : Written (array element) (writeArray (xs.map write)) xs where
  reads rest := by
    have shape : bytes (writeArray (xs.map write)) =
        ascii '[' :: (bytes (",".intercalate (xs.map write)) ++ [ascii ']']) := by
      rw [writeArray, bytes_append, bytes_append]
      rfl
    rw [shape, List.cons_append, List.append_assoc]
    refine (reads_peekToken (by decide) _).bind ?_
    rw [if_pos rfl]
    refine (reads_advance _ _).bind (.bind (t := ascii ']' :: rest) (a := xs) ?_ ((reads_advance _ _).bind (.pure _ _)))
    rcases xs with _ | ⟨x, xs⟩
    · refine (Reads.bind (a := false) (t := ascii ']' :: rest) ?_ (.pure _ _))
      exact (reads_peekToken (by decide) _).bind (.pure _ _)
    · obtain ⟨b, bs, begins, solid, more, -⟩ := (h x List.mem_cons_self).opens
      have value := (h x List.mem_cons_self).reads
      have later : ∀ y ∈ xs, Written element (write y) y := fun y hy => h y (List.mem_cons_of_mem x hy)
      have others := (repeats_elementStep later [x] rest).reads
      rw [List.map_cons, bytes_separated, List.append_assoc, List.flatMap_map]
      have opened : Reads anyElements (bytes (write x) ++ ((xs.flatMap fun x => ascii ',' :: bytes (write x)) ++ ascii ']' :: rest))
          true (bytes (write x) ++ ((xs.flatMap fun x => ascii ',' :: bytes (write x)) ++ ascii ']' :: rest)) := by
        rw [begins]
        refine (reads_peekToken solid _).bind ?_
        dsimp only
        rw [decide_eq_true more]
        exact .pure _ _
      refine opened.bind ?_
      rw [if_pos rfl]
      exact (value _).bind others
  opens := ⟨ascii '[', _, by rw [writeArray, bytes_append, bytes_append]; rfl, by decide, by decide, by decide⟩

def memberText (m : String × String) : String := writeString m.1 ++ ":" ++ m.2

theorem bytes_memberText (m : String × String) (rest : List UInt8) :
    bytes (memberText m) ++ rest = quote :: (escaped m.1 ++ quote :: ascii ':' :: (bytes m.2 ++ rest)) := by
  rw [memberText, bytes_append, bytes_append, bytes_writeString]
  simp only [List.cons_append, List.append_assoc]
  rfl

theorem bytes_writeObject (ms : List (String × String)) :
    bytes (writeObject ms) = ascii '\x7b' :: (bytes (",".intercalate (ms.map memberText)) ++ [ascii '\x7d']) := by
  rw [writeObject, bytes_append, bytes_append]
  rfl

/-- Written members, one after the other, take the reading of an object from one state to another. -/
inductive Takes (member : String → α → Reader α) : List (String × String) → α → α → Prop where
  | done (a : α) : Takes member [] a a
  | next {key text : String} {a b c : α} {ms : List (String × String)}
      (value : ∀ rest, Reads (member key a) (ascii ':' :: (bytes text ++ rest)) b rest)
      (later : Takes member ms b c) : Takes member ((key, text) :: ms) a c

/-- The key of a member of which the quote has been read, and the rest of the member. -/
def oneMember (member : String → α → Reader α) (a : α) : Reader α := do member (← stringRest) a

def memberStep (member : String → α → Reader α) (a : α) : Reader (Option α) := do
  if ← moreMembers then do
    let b ← oneMember member a
    pure (some b)
  else pure none

section members

variable {member : String → α → Reader α} {a b c : α} {ms : List (String × String)}

theorem reads_oneMember {key text : String} {rest : List UInt8}
    (value : Reads (member key a) (ascii ':' :: (bytes text ++ rest)) b rest) :
    Reads (oneMember member a) (escaped key ++ quote :: ascii ':' :: (bytes text ++ rest)) b rest :=
  (reads_stringRest key _).bind value

theorem reads_moreMembers_end (rest : List UInt8) :
    Reads moreMembers (ascii '\x7d' :: rest) false (ascii '\x7d' :: rest) := by
  refine (reads_peekToken (by decide) _).bind ?_
  dsimp only
  rw [if_pos rfl]
  exact .pure _ _

theorem reads_moreMembers_next (rest : List UInt8) : Reads moreMembers (ascii ',' :: quote :: rest) true rest := by
  refine (reads_peekToken (by decide) _).bind ?_
  dsimp only
  rw [if_neg (by decide), if_pos rfl]
  refine (reads_advance _ _).bind ((reads_peekToken (by decide) rest).bind ?_)
  dsimp only
  rw [if_pos rfl]
  exact (reads_advance _ _).bind (.pure _ _)

theorem Takes.repeats (h : Takes member ms a c) (rest : List UInt8) :
    Repeats (memberStep member) a ((ms.flatMap fun m => ascii ',' :: bytes (memberText m)) ++ ascii '\x7d' :: rest)
      c (ascii '\x7d' :: rest) := by
  induction h with
  | done a => exact .done ((reads_moreMembers_end rest).bind (.pure _ _))
  | next value later ih =>
    rw [List.flatMap_cons, List.append_assoc, List.cons_append, bytes_memberText]
    refine .next ((reads_moreMembers_next _).bind ((reads_oneMember (value _)).bind (.pure _ _))) ?_ ih
    simp only [List.length_cons, List.length_append]
    omega

theorem Takes.reads_members (h : Takes member ms a c) (rest : List UInt8) :
    Reads (members member a) (bytes (",".intercalate (ms.map memberText)) ++ ascii '\x7d' :: rest) c rest := by
  refine .bind (t := ascii '\x7d' :: rest) (a := c) ?_ ((reads_advance _ _).bind (.pure _ _))
  rcases h with _ | ⟨value, later⟩
  · refine .bind (a := false) (t := ascii '\x7d' :: rest) ?_ (.pure _ _)
    exact (reads_peekToken (by decide) _).bind (.pure _ _)
  · rw [List.map_cons, bytes_separated, List.append_assoc, bytes_memberText, List.flatMap_map]
    refine .bind (a := true) ((reads_peekToken (by decide) _).bind ((reads_advance _ _).bind (.pure _ _))) ?_
    rw [if_pos rfl]
    exact (reads_oneMember (value _)).bind (later.repeats rest).reads

end members

def fieldMember (fields : List (RecordField ρ)) (key : String) : ρ × List String → Reader (ρ × List String)
  | (r, seen) => do
    match fields.find? (·.name = key) with
    | some field =>
      if seen.contains key then throw .wrongShape
      expect (ascii ':')
      let r ← field.read r
      pure (r, key :: seen)
    | none =>
      expect (ascii ':')
      skipValue
      pure (r, seen)

theorem namedFields_eq (fields : List (RecordField ρ)) (start : ρ) :
    namedFields fields start = members (fieldMember fields) (start, []) := rfl

theorem find?_field {fields : List (RecordField ρ)} (distinct : (fields.map RecordField.name).Nodup)
    {field : RecordField ρ} (mem : field ∈ fields) : fields.find? (·.name = field.name) = some field := by
  induction fields with
  | nil => exact absurd mem List.not_mem_nil
  | cons head fields ih =>
    rw [List.map_cons, List.nodup_cons] at distinct
    obtain rfl | mem := List.mem_cons.1 mem
    · exact List.find?_cons_of_pos (by simp)
    · have other : head.name ≠ field.name := fun same => distinct.1 (same ▸ List.mem_map_of_mem mem)
      rw [List.find?_cons_of_neg (by simpa using other)]
      exact ih distinct.2 mem

/-- Members for the fields in their order, some of which are left out, that take a record from one
value to another. -/
inductive Fills : List (RecordField ρ) → List (String × String) → ρ → ρ → Prop where
  | done (r : ρ) : Fills [] [] r r
  | absent {field : RecordField ρ} {fields : List (RecordField ρ)} {ms : List (String × String)} {r s : ρ}
      (later : Fills fields ms r s) : Fills (field :: fields) ms r s
  | present {field : RecordField ρ} {fields : List (RecordField ρ)} {ms : List (String × String)} {text : String}
      {r s t : ρ} (value : ∀ rest, Reads (field.read r) (bytes text ++ rest) s rest) (later : Fills fields ms s t) :
      Fills (field :: fields) ((field.name, text) :: ms) r t

section fills

variable {field : RecordField ρ} {fields all : List (RecordField ρ)} {ms : List (String × String)} {r s t : ρ}

/-- A field that is written like the value that is read into it. -/
theorem Fills.written {value : Reader α} {text : String} {a : α} {set : α → ρ} (h : Written value text a)
    (reading : field.read r = value >>= fun a => pure (set a)) (later : Fills fields ms (set a) t) :
    Fills (field :: fields) ((field.name, text) :: ms) r t := by
  refine .present (fun rest => ?_) later
  rw [reading]
  exact (h.reads rest).bind (.pure _ _)

theorem Fills.optional {value : Option String} {set : Option String → ρ}
    (reading : field.read r = nullable string >>= fun a => pure (set a)) (unset : set none = r)
    (later : Fills fields ms (set value) t) :
    Fills (field :: fields) (optionalMember field.name value ++ ms) r t := by
  rcases value with _ | v
  · rw [unset] at later
    exact .absent later
  · exact .written (written_string v).nullable reading later

/-- A name that has been seen would be refused, and a known name reads the field that has it. -/
theorem Fills.takes (h : Fills fields ms r s) {seen : List String} (distinct : (fields.map RecordField.name).Nodup)
    (known : ∀ field ∈ fields, all.find? (·.name = field.name) = some field) (unseen : ∀ field ∈ fields, field.name ∉ seen) :
    Takes (fieldMember all) ms (r, seen) (s, (ms.map Prod.fst).reverse ++ seen) := by
  induction h generalizing seen with
  | done r => exact .done _
  | absent later ih =>
    rw [List.map_cons, List.nodup_cons] at distinct
    exact ih distinct.2 (fun f hf => known f (List.mem_cons_of_mem _ hf)) fun f hf => unseen f (List.mem_cons_of_mem _ hf)
  | @present field fields ms text r s t value later ih =>
    rw [List.map_cons, List.nodup_cons] at distinct
    rw [List.map_cons, List.reverse_cons, List.append_assoc, List.singleton_append]
    have first : ¬ seen.contains field.name = true := by
      rw [List.contains_iff_mem]
      exact unseen field List.mem_cons_self
    refine .next (fun rest => ?_) (ih distinct.2 (fun f hf => known f (List.mem_cons_of_mem _ hf)) fun f hf => ?_)
    · rw [fieldMember]
      simp only [known field List.mem_cons_self]
      rw [if_neg first]
      exact (reads_expect (by decide) _).bind ((value rest).bind (.pure _ _))
    · have other : f.name ≠ field.name := fun same => distinct.1 (same ▸ List.mem_map_of_mem hf)
      rw [List.mem_cons, not_or]
      exact ⟨other, unseen f (List.mem_cons_of_mem _ hf)⟩

theorem written_record {required : List String} {start : ρ} (h : Fills fields ms start r)
    (distinct : (fields.map RecordField.name).Nodup) (complete : ∀ name ∈ required, name ∈ ms.map Prod.fst) :
    Written (record fields required start) (writeObject ms) r where
  reads rest := by
    have taken := (h.takes distinct (fun _ => find?_field distinct) fun _ _ => List.not_mem_nil).reads_members rest
    rw [← namedFields_eq] at taken
    have enough : required.all ((ms.map Prod.fst).reverse ++ []).contains = true := by
      rw [List.all_eq_true]
      intro name mem
      rw [List.append_nil, List.contains_iff_mem, List.mem_reverse]
      exact complete name mem
    rw [bytes_writeObject, List.cons_append, List.append_assoc, List.singleton_append]
    refine (reads_peekToken (by decide) _).bind ?_
    rw [if_pos rfl]
    refine (reads_advance _ _).bind (taken.bind ?_)
    dsimp only
    rw [if_pos enough]
    exact .pure _ _
  opens := ⟨_, _, bytes_writeObject ms, by decide, by decide, by decide⟩

end fills

end InventoryQuery.Json
