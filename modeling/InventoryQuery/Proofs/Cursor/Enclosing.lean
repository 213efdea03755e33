import InventoryQuery.Proofs.Cursor.Marker
import InventoryQuery.Proofs.Tree.Order

/-! The filter around the marker. The way from the marker up to the root passes all subtrees that have
the marker in them, the smallest first, and it stops at the first that is a filter. -/

namespace InventoryQuery

namespace Tree

variable {t : Tree} {m c f g p : NodeId}

/-- The node has this filter, and the marker is in it. -/
def FilterAround (t : Tree) (m f : NodeId) : Prop :=
  ∃ w source, t.shape? w = some (.whose source f) ∧ m ∈ t.preorderOf f

/-- A filter around the marker that lies in all others. -/
def Innermost (t : Tree) (m f : NodeId) : Prop :=
  t.FilterAround m f ∧ ∀ g, t.FilterAround m g → f ∈ t.preorderOf g

/-- The walk from a node up to the first filter, with no bound on its steps. -/
inductive Climbs (t : Tree) : NodeId → Option NodeId → Prop
  | top {c : NodeId} : t.parents[c]? = some none → Climbs t c none
  | found {c p source : NodeId} : t.parents[c]? = some (some p) → t.shape? p = some (.whose source c) →
    Climbs t c (some c)
  | up {c p : NodeId} {r : Option NodeId} : t.parents[c]? = some (some p) →
    (∀ source, t.shape? p ≠ some (.whose source c)) → Climbs t p r → Climbs t c r

theorem filter_mem_children {w source : NodeId} (h : t.shape? w = some (.whose source f)) : f ∈ t.children w := by
  rw [children_of_shape? h]
  exact List.mem_cons_of_mem _ List.mem_cons_self

namespace FilterAround

theorem lt_size (h : t.Whole) (hf : t.FilterAround m f) : f < t.size := by
  obtain ⟨w, source, hw, -⟩ := hf
  have hc := filter_mem_children hw
  exact Nat.lt_trans (h.downward.lt hc) (lt_size_of_mem_children hc)

/-- The root is in no filter. -/
theorem ne_root (h : t.Whole) (hf : t.FilterAround m f) : m ≠ t.root := by
  rintro rfl
  have hid := hf.lt_size h
  obtain ⟨w, source, hw, mem⟩ := hf
  have above : t.root ≠ f := fun same => h.root_not_mem w (same ▸ filter_mem_children hw)
  have inside : ∀ x ∈ t.preorderOf f, x ≠ t.root :=
    forall_mem_preorderOf h.downward (p := (· ≠ t.root)) hid above.symm
      fun x _ child hc same => h.root_not_mem x (same ▸ hc)
  exact inside _ mem rfl

/-- Unless a part is a filter itself, the filters around it are those around its whole. -/
theorem parent_iff (h : t.Whole) (hc : c ∈ t.children p)
    (other : ∀ source, t.shape? p ≠ some (.whose source c)) : t.FilterAround c f ↔ t.FilterAround p f := by
  constructor
  · intro hf
    have hid := hf.lt_size h
    obtain ⟨w, source, hw, mem⟩ := hf
    rcases (h.mem_preorderOf_iff hc hid).1 mem with rfl | inside
    · rw [h.parent_unique (filter_mem_children hw) hc] at hw
      exact absurd hw (other source)
    · exact ⟨w, source, hw, inside⟩
  · intro hf
    have hid := hf.lt_size h
    obtain ⟨w, source, hw, inside⟩ := hf
    exact ⟨w, source, hw, (h.mem_preorderOf_iff hc hid).2 (.inr inside)⟩

end FilterAround

/-- What is in the source is not in the filter. -/
theorem Whole.not_mem_filter (h : t.Whole) {w source x : NodeId} (hw : t.shape? w = some (.whose source f))
    (hx : x ∈ t.preorderOf source) : x ∉ t.preorderOf f := by
  have hid := lt_size_of_shape? hw
  have nodup := h.preorderOf_nodup hid
  rw [preorderOf_eq h.downward hid, children_of_shape? hw] at nodup
  obtain ⟨-, disjoint⟩ := List.nodup_flatMap.1 (List.nodup_cons.1 nodup).2
  have parts : List.Disjoint (t.preorderOf source) (t.preorderOf f) := by simpa [Shape.children] using disjoint
  exact parts hx

/-- A marker that is in the source wherever there is a filter is in none. -/
theorem Whole.not_filterAround (h : t.Whole)
    (sources : ∀ w source f, t.shape? w = some (.whose source f) → m ∈ t.preorderOf w → m ∈ t.preorderOf source) :
    ¬ t.FilterAround m f := by
  intro hf
  obtain ⟨w, source, hw, inside⟩ := hf
  have mem := preorderOf_subset h.downward (filter_mem_children hw) inside
  exact h.not_mem_filter hw (sources w source f hw mem) inside

theorem Innermost.unique (h : t.Whole) (hf : t.Innermost m f) (hg : t.Innermost m g) : f = g :=
  Nat.le_antisymm (le_of_mem_preorderOf h.downward (hg.1.lt_size h) (hf.2 g hg.1))
    (le_of_mem_preorderOf h.downward (hf.1.lt_size h) (hg.2 f hf.1))

/-- What the walk ends with, if it ends. -/
theorem Climbs.innermost (h : t.Whole) {r : Option NodeId} (climbs : t.Climbs c r) (hc : c < t.size) :
    (∀ f, r = some f → t.Innermost c f) ∧ (r = none → ∀ f, ¬ t.FilterAround c f) := by
  induction climbs with
  | top hp =>
    refine ⟨nofun, fun _ f hf => ?_⟩
    exact hf.ne_root h ((h.parents_root_iff hc).1 hp)
  | found hp hw =>
    refine ⟨?_, nofun⟩
    rintro _ ⟨⟩
    exact ⟨⟨_, _, hw, mem_preorderOf_self h.downward hc⟩, fun g hg => hg.choose_spec.choose_spec.2⟩
  | @up c p r hp other _ ih =>
    have hc := h.mem_children_of_parents hc hp
    obtain ⟨found, unfound⟩ := ih (lt_size_of_mem_children hc)
    refine ⟨fun f hf => ?_, fun hr f hf => unfound hr f ((FilterAround.parent_iff h hc other).1 hf)⟩
    obtain ⟨around, inside⟩ := found f hf
    exact ⟨(FilterAround.parent_iff h hc other).2 around,
      fun g hg => inside g ((FilterAround.parent_iff h hc other).1 hg)⟩

/-- Every step leads to a larger number, so the steps are enough for the way to the root. -/
theorem climbs_filterAbove (h : t.Whole) {steps : List (NodeId × NodeId)} (path : t.Path c steps) {n : Nat}
    (hc : c < t.size) (enough : t.size - c ≤ n) :
    t.Climbs c (Cursor.Prediction.filterAbove t t.parents n c) := by
  induction path generalizing n with
  | root =>
    obtain ⟨n, rfl⟩ := Nat.exists_eq_add_one.2 (Nat.lt_of_lt_of_le (Nat.sub_pos_of_lt hc) enough)
    rw [Cursor.Prediction.filterAbove, h.parents_root]
    exact .top h.parents_root
  | @up c p steps hp path ih =>
    obtain ⟨n, rfl⟩ := Nat.exists_eq_add_one.2 (Nat.lt_of_lt_of_le (Nat.sub_pos_of_lt hc) enough)
    have up := h.parents_child hp
    have fewer := Nat.sub_lt_sub_left hc (h.downward.lt hp)
    have later := ih (lt_size_of_mem_children hp) (Nat.le_of_lt_succ (Nat.lt_of_lt_of_le fewer enough))
    rw [Cursor.Prediction.filterAbove, up]
    dsimp only [Option.getD_some]
    split
    case h_1 source filter hw =>
      split
      case isTrue same => exact .found up (same ▸ hw)
      case isFalse different =>
        refine .up up (fun source' hs => ?_) later
        cases hs.symm.trans hw
        exact different rfl
    case h_2 other => exact .up up (fun source hs => other source c hs) later

end Tree

namespace Cursor

/-- What is found is the innermost filter around the marker, and nothing is found if there is none, as
for a marker in nothing but sources. The walk that looks for it ends at a filter or at the root. -/
theorem enclosing_filter_innermost (options : Options) (text : List Char) (offset : Nat) (t : Tree) (m : NodeId)
    (ht : (predict options text offset).tree = some t) (hm : (predict options text offset).marker = some m) :
    let found := (predict options text offset).enclosingFilter
    (∀ f, found = some f ↔ t.Innermost m f) ∧
    (found = none ↔ ∀ f, ¬ t.FilterAround m f) ∧
    ((∀ w source f, t.shape? w = some (.whose source f) → m ∈ t.preorderOf w → m ∈ t.preorderOf source) →
      found = none) ∧
    t.Climbs m found := by
  obtain ⟨-, -, -, -, -, -, isMarker⟩ := marker_found ht
  have hid := Tree.lt_size_of_shape? (isMarker m hm)
  have whole : t.Whole := by
    rcases predict_cases options text offset with ⟨failed, -⟩ | ⟨k, u, -, compiled, tree, -⟩
    · cases ht.symm.trans failed
    · cases ht.symm.trans tree
      obtain ⟨v, whole, rfl⟩ := whole_of_compile compiled
      exact whole.withScopes
  obtain ⟨steps, path⟩ := whole.exists_path hid
  have climbs := Tree.climbs_filterAbove whole path hid (Nat.sub_le _ _)
  have found : (predict options text offset).enclosingFilter =
      Prediction.filterAbove t t.parents t.size m := by
    simp [Prediction.enclosingFilter, ht, hm]
  obtain ⟨inner, nothing⟩ := climbs.innermost whole hid
  rw [found]
  dsimp only
  generalize Prediction.filterAbove t t.parents t.size m = r at climbs inner nothing
  have unfound (all : ∀ f, ¬ t.FilterAround m f) : r = none :=
    Option.eq_none_iff_forall_ne_some.2 fun f hf => all f (inner f hf).1
  refine ⟨fun f => ⟨inner f, fun hf => ?_⟩, ⟨nothing, unfound⟩, fun sources => ?_, climbs⟩
  · cases r with
    | none => exact absurd hf.1 (nothing rfl f)
    | some g => rw [(inner g rfl).unique whole hf]
  · exact unfound fun f => whole.not_filterAround sources

theorem enclosing_filter_innermost_nested :
    let text := "x whose (y whose (it = ".toList
    let p := predict .standard text 23
    let t : Tree := ⟨#[⟨.phrase "x" none, ⟨0, 1⟩, none, false⟩, ⟨.phrase "y" none, ⟨10, 11⟩, some 0, false⟩,
      ⟨.it, ⟨20, 23⟩, some 1, false⟩, ⟨.marker, ⟨26, 27⟩, some 1, false⟩,
      ⟨.binary (.relation "=") 2 3, ⟨20, 27⟩, some 1, false⟩, ⟨.parens 4, ⟨19, 28⟩, some 1, false⟩,
      ⟨.whose 1 5, ⟨10, 28⟩, some 0, false⟩, ⟨.parens 6, ⟨9, 29⟩, some 0, false⟩,
      ⟨.whose 0 7, ⟨0, 29⟩, none, false⟩], 8⟩
    p.tree = some t ∧ p.marker = some 3 ∧ p.enclosingFilter = some 5 ∧
    (∀ f, p.enclosingFilter = some f ↔ t.Innermost 3 f) ∧
    (p.enclosingFilter = none ↔ ∀ f, ¬ t.FilterAround 3 f) ∧
    ((∀ w source f, t.shape? w = some (.whose source f) → 3 ∈ t.preorderOf w → 3 ∈ t.preorderOf source) →
      p.enclosingFilter = none) ∧
    t.Climbs 3 p.enclosingFilter := by
  intro text p t
  have tree : p.tree = some t := by decide +kernel
  have marker : p.marker = some 3 := by decide +kernel
  have filter : p.enclosingFilter = some 5 := by decide +kernel
  exact ⟨tree, marker, filter, enclosing_filter_innermost .standard text 23 t 3 tree marker⟩

/-- In the source of a filter there is none around the marker, though the receiver of the filter is
the marker itself. -/
example : (predict .standard "x of ? whose (y)".toList 6).enclosingFilter = none := by decide +kernel

end Cursor

end InventoryQuery
