import InventoryQuery.Proofs.Typing.Termination

/-! The type of a node is the type of the expression it stands for, once the type of its receiver is
known. Numbers and places play no part, so the same expression on the same receiver has the same
type wherever it stands. -/

namespace InventoryQuery

/-- A type or the reason that there is none. -/
abbrev Answer := Except TypeError Ty

namespace Expr

/-- Without a receiver nothing can be looked up on it. -/
def onReceiver (receiver : Option Answer) : Answer := receiver.getD (.error .unboundIt)

def tupleItem? (owner : Ty) (name : String) (argument : Option Expr) : Option Answer :=
  match owner with
  | .tuple items =>
    if lowered name = "item" then
      match argument.map shape with
      | some (.number digits) =>
        let index := decimalValue digits.toList
        if index < wordLimit then
          match items[index]? with
          | some ty => some (.ok ty)
          | none => some (.error (.noItem index items.length))
        else none
      | _ => none
    else none
  | _ => none

/-- The type of a phrase, from its receiver and the key of its argument. -/
def phraseAnswer (ix : Index) (receiver : Option Answer) (direct : Bool) (name : String)
    (key : Except TypeError (Option String)) : Answer :=
  let name := lowered name
  if name = "true" || name = "false" then .ok .boolean
  else do
    let params ← key
    if direct then (← onReceiver receiver).property ix name params
    else
      match ix.creation name params with
      | .ok f => .ok (.named f.resultType)
      | .error e =>
        match receiver.map (· >>= fun owner => owner.property ix name params) with
        | some (.ok ty) => .ok ty
        | _ => .error (.lookup e)

def propertyAnswer (ix : Index) (source : Answer) (name : String) (argument : Option Expr)
    (key : Except TypeError (Option String)) : Answer := do
  let owner ← source
  match tupleItem? owner name argument with
  | some item => item
  | none => owner.property ix (lowered name) (← key)

mutual

/-- The type of an expression, by the type of its receiver and by whether it is looked up on it. -/
def type (ix : Index) : Expr → (receiver : Option Answer) → (direct : Bool) → Answer
  | node (.string _), _, _ => .ok .string
  | node (.number _), _, _ => .ok .number
  | node .it, receiver, _ => onReceiver receiver
  | node .marker, receiver, direct => if direct then onReceiver receiver else .ok .world
  | node (.phrase name argument), receiver, direct =>
    phraseAnswer ix receiver direct name (argumentKey ix argument receiver)
  | node (.property accessor source), receiver, _ =>
    let owner := source.type ix receiver false
    match accessor with
    | node (.phrase name argument) =>
      propertyAnswer ix owner name argument (argumentKey ix argument (some owner))
    | accessor => accessor.type ix (some owner) true
  | node (.whose source _), receiver, direct => source.type ix receiver direct
  | node (.parens content), receiver, _ => content.type ix receiver false
  | node (.cast _ target), _, _ => .ok (.named target)
  | node (.unary _ _), _, _ => .ok .boolean
  | node (.binary operator _ _), _, _ =>
    .ok (if operator.isBoolean then .boolean else .unsupported operator.spelling)
  | node (.tuple items), receiver, _ => .tuple <$> typeAll ix items receiver
  | node (.collection items), receiver, _ =>
    match items with
    | first :: _ => first.type ix receiver false
    | [] => .ok (.tuple [])
  | node (.conditional _ thenBranch _), receiver, _ => thenBranch.type ix receiver false

def argumentKey (ix : Index) : Option Expr → (receiver : Option Answer) →
    Except TypeError (Option String)
  | none, _ => .ok none
  | some argument, receiver => return some (← argument.type ix receiver false).display

def typeAll (ix : Index) : List Expr → (receiver : Option Answer) → Except TypeError (List Ty)
  | [], _ => .ok []
  | e :: es, receiver => return (← e.type ix receiver false) :: (← typeAll ix es receiver)

end

theorem type_property_of_not_phrase (ix : Index) {accessor : Expr} (source : Expr)
    (receiver : Option Answer) (direct : Bool)
    (h : ∀ name argument, accessor ≠ node (.phrase name argument)) :
    (node (.property accessor source)).type ix receiver direct =
      accessor.type ix (some (source.type ix receiver false)) true := by
  rw [type]
  exact h

end Expr

namespace Typing

variable {α β : Type}

theorem ofExcept_bind (r : Except TypeError α) {f : α → Typing β} {g : α → Except TypeError β}
    (h : ∀ a, f a = ofExcept (g a)) : (ofExcept r >>= f) = ofExcept (r >>= g) := by
  cases r with
  | error e => rfl
  | ok a => exact h a

theorem ofExcept_map (r : Except TypeError α) (f : α → β) :
    f <$> ofExcept r = ofExcept (f <$> r) := by
  cases r <;> rfl

theorem ofExcept_mapM {f : α → Typing β} {g : α → Except TypeError β} {l : List α}
    (h : ∀ a ∈ l, f a = ofExcept (g a)) : l.mapM f = ofExcept (l.mapM g) := by
  induction l with
  | nil => rfl
  | cons a l ih =>
    obtain ⟨first, rest⟩ := List.forall_mem_cons.1 h
    rw [List.mapM_cons, List.mapM_cons, first, ih rest]
    exact ofExcept_bind _ fun b => ofExcept_bind _ fun bs => rfl

end Typing

theorem Expr.typeAll_eq_mapM (ix : Index) (es : List Expr) (receiver : Option Answer) :
    Expr.typeAll ix es receiver = es.mapM fun e => e.type ix receiver false := by
  induction es with
  | nil => rfl
  | cons e es ih =>
    rw [Expr.typeAll, ih, List.mapM_cons]

namespace Tree

section step

variable {t : Tree} {ix : Index} {ask : NodeId → Typing Ty} {n : Node} {receiver : Option Answer}

/-- Either there is a receiver on both sides or on none. -/
theorem receiver_cases (hr : n.scope.map ask = receiver.map Typing.ofExcept) :
    n.scope = none ∧ receiver = none ∨
      ∃ scope r, n.scope = some scope ∧ receiver = some r ∧ ask scope = Typing.ofExcept r := by
  cases hs : n.scope with
  | none =>
    rw [hs] at hr
    exact .inl ⟨rfl, Option.map_eq_none_iff.1 hr.symm⟩
  | some scope =>
    rw [hs] at hr
    obtain ⟨r, same, asked⟩ := Option.map_eq_some_iff.1 hr.symm
    exact .inr ⟨scope, r, rfl, same, asked.symm⟩

theorem receiverType_eq (hr : n.scope.map ask = receiver.map Typing.ofExcept) :
    receiverType ask n = Typing.ofExcept (Expr.onReceiver receiver) := by
  unfold receiverType
  obtain ⟨hs, rfl⟩ | ⟨scope, r, hs, rfl, asked⟩ := receiver_cases hr <;> rw [hs]
  · rfl
  · exact asked

theorem argumentType_eq {argument : Option NodeId}
    (ha : ∀ id ∈ argument, ask id = Typing.ofExcept ((t.expr id).type ix receiver false)) :
    argumentType ask argument =
      Typing.ofExcept (Expr.argumentKey ix (argument.map t.expr) receiver) := by
  cases argument with
  | none => rfl
  | some id =>
    simp only [argumentType, ha id rfl]
    exact Typing.ofExcept_bind _ fun _ => rfl

theorem phraseType_eq (hr : n.scope.map ask = receiver.map Typing.ofExcept) {name : String}
    {argument : Option NodeId} {key : Except TypeError (Option String)}
    (hk : argumentType ask argument = Typing.ofExcept key) :
    phraseType ix ask n name argument =
      Typing.ofExcept (Expr.phraseAnswer ix receiver n.direct name key) := by
  unfold phraseType Expr.phraseAnswer
  dsimp only
  split
  · rfl
  rw [hk]
  refine Typing.ofExcept_bind _ fun params => ?_
  split
  · rw [receiverType_eq hr]
    exact Typing.ofExcept_bind _ fun _ => rfl
  cases ix.creation (lowered name) params with
  | ok f => rfl
  | error e =>
    obtain ⟨hs, rfl⟩ | ⟨scope, r, hs, rfl, asked⟩ := receiver_cases hr <;> rw [hs]
    · rfl
    · have looked : (do Typing.ofExcept ((← ask scope).property ix (lowered name) params)) =
          Typing.ofExcept (r >>= fun owner => owner.property ix (lowered name) params) := by
        rw [asked]
        exact Typing.ofExcept_bind _ fun _ => rfl
      dsimp only [Option.map_some]
      rw [looked]
      cases r >>= fun owner => owner.property ix (lowered name) params <;> rfl

theorem tupleItem?_eq (h : Downward t.nodes) (owner : Ty) (name : String)
    (argument : Option NodeId) :
    t.tupleItem? owner name argument = Expr.tupleItem? owner name (argument.map t.expr) := by
  unfold Tree.tupleItem? Expr.tupleItem?
  cases owner with
  | named | unsupported => rfl
  | tuple items =>
    dsimp only
    split
    · cases argument with
      | none => rfl
      | some id =>
        rw [Option.bind_some, Option.map_some, Option.map_some, Tree.shape?]
        cases hm : t.nodes[id]? with
        | none =>
          rw [expr_of_none hm]
          rfl
        | some m =>
          rw [expr_eq h hm, Option.map_some, Expr.shape]
          cases m.shape <;> rfl
    · rfl

theorem propertyType_eq (h : Downward t.nodes) {accessor source : NodeId} {owner : Answer}
    {m : Node} (hm : t.nodes[accessor]? = some m) (hs : ask source = Typing.ofExcept owner)
    (hk : ∀ name argument, m.shape = .phrase name argument → argumentType ask argument =
      Typing.ofExcept (Expr.argumentKey ix (argument.map t.expr) (some owner)))
    (ha : ask accessor = Typing.ofExcept ((t.expr accessor).type ix (some owner) true))
    (direct : Bool) (hr : (t.expr source).type ix receiver false = owner) :
    propertyType t ix ask accessor source = Typing.ofExcept
      ((Expr.node (.property (t.expr accessor) (t.expr source))).type ix receiver direct) := by
  have form := expr_eq h hm
  unfold propertyType
  rw [shape?, hm, Option.map_some]
  split
  · rename_i name argument shape
    rw [Option.some.inj shape] at form
    rw [form, Shape.map, Expr.type, hr, hs]
    refine Typing.ofExcept_bind _ fun ty => ?_
    rw [tupleItem?_eq h]
    cases Expr.tupleItem? ty name (argument.map t.expr) with
    | some item => rfl
    | none =>
      dsimp only
      rw [hk name argument (Option.some.inj shape)]
      exact Typing.ofExcept_bind _ fun _ => rfl
  · rename_i other
    rw [Expr.type_property_of_not_phrase, hr, ha]
    intro name argument same
    rw [form] at same
    cases hshape : m.shape <;> rw [hshape] at same other <;> cases same
    exact other _ _ rfl

/-- Every part has the settings that its whole hands down. -/
def Settled (t : Tree) : Prop :=
  ∀ (p : NodeId) (n : Node), t.nodes[p]? = some n → ∀ part ∈ handedDown n,
    ∃ m, t.nodes[part.1]? = some m ∧ m.scope = part.2.1 ∧ m.direct = part.2.2

/-- The step is right for a node if the answers it can ask for are right for all nodes before. -/
theorem typeStep_eq {known : NodeId → Option Answer} (down : Downward t.nodes) (settled : t.Settled)
    {id : NodeId} (hn : t.nodes[id]? = some n)
    (receivers : ∀ scope ∈ n.scope, ∃ r, known scope = some r)
    (earlier : ∀ c k, c < id → t.nodes[c]? = some k →
      known c = some ((t.expr c).type ix (k.scope.bind known) k.direct)) :
    t.typeStep ix (fun y => ExceptT.mk (known y)) id =
      Typing.ofExcept ((t.expr id).type ix (n.scope.bind known) n.direct) := by
  have answered : n.scope.map (fun y => ExceptT.mk (known y)) =
      (n.scope.bind known).map Typing.ofExcept := by
    cases hs : n.scope with
    | none => rfl
    | some scope =>
      obtain ⟨r, hr⟩ := receivers scope hs
      rw [Option.map_some, Option.bind_some, hr]
      rfl
  -- what a part answers, with the settings that its whole hands down
  have part {p c : NodeId} {m : Node} {scope : Option NodeId} {direct : Bool} (hp : p ≤ id)
      (hm : t.nodes[p]? = some m) (hc : (c, scope, direct) ∈ handedDown m) :
      known c = some ((t.expr c).type ix (scope.bind known) direct) := by
    obtain ⟨k, hk, rfl, rfl⟩ := settled p m hm _ hc
    have mem : c ∈ m.shape.children :=
      (handedDown_perm m).mem_iff.1 (List.mem_map_of_mem (f := (·.1)) hc)
    exact earlier c k (Nat.lt_of_lt_of_le (down p m hm c mem) hp) hk
  have handed {c : NodeId} {scope : Option NodeId} {direct : Bool}
      (hc : (c, scope, direct) ∈ handedDown n) : (ExceptT.mk (known c) : Typing Ty) =
        Typing.ofExcept ((t.expr c).type ix (scope.bind known) direct) :=
    congrArg ExceptT.mk (part (Nat.le_refl id) hn hc)
  rw [expr_eq down hn, typeStep]
  simp only [hn]
  cases hs : n.shape with
  | string | number | cast | unary | binary => rfl
  | it => exact receiverType_eq answered
  | marker =>
    rw [Shape.map, Expr.type]
    cases n.direct
    · rfl
    · exact receiverType_eq answered
  | phrase name argument =>
    rw [Shape.map, Expr.type]
    refine phraseType_eq answered (argumentType_eq fun c hc => ?_)
    exact handed (by simp [handedDown, hs, Shape.children, Option.mem_def.1 hc])
  | property accessor source =>
    have access : (accessor, some source, true) ∈ handedDown n := by simp [handedDown, hs]
    have supply : (source, n.scope, false) ∈ handedDown n := by simp [handedDown, hs]
    have mem : accessor ∈ n.shape.children := by simp [hs, Shape.children]
    obtain ⟨m, hm, scope, -⟩ := settled id n hn _ access
    have owner : (some source).bind known = _ := part (Nat.le_refl id) hn supply
    have accessed := handed access
    rw [owner] at accessed
    refine propertyType_eq down hm (handed supply) (fun name argument shape => ?_) accessed n.direct rfl
    refine argumentType_eq fun c hc => ?_
    have argument : (c, m.scope, false) ∈ handedDown m := by
      simp [handedDown, shape, Shape.children, Option.mem_def.1 hc]
    have inner := part (Nat.le_of_lt (down id n hn accessor mem)) hm argument
    rw [scope, owner] at inner
    exact congrArg ExceptT.mk inner
  | whose source filter =>
    rw [Shape.map, Expr.type]
    exact handed (by simp [handedDown, hs])
  | parens content =>
    rw [Shape.map, Expr.type]
    exact handed (by simp [handedDown, hs, Shape.children])
  | tuple items =>
    rw [Shape.map, Expr.type, Expr.typeAll_eq_mapM, List.mapM_map, ← Typing.ofExcept_map]
    exact congrArg (Ty.tuple <$> ·) (Typing.ofExcept_mapM fun c hc =>
      handed (by simp [handedDown, hs, Shape.children, hc]))
  | collection items =>
    cases items with
    | nil => rfl
    | cons first _ =>
      simp only [Shape.map, List.map_cons, Expr.type]
      exact handed (by simp [handedDown, hs, Shape.children])
  | conditional condition thenBranch _ =>
    rw [Shape.map, Expr.type]
    exact handed (by simp [handedDown, hs, Shape.children])

end step

section recursion

variable {u : Tree} (h : u.Whole) (ix : Index)
include h

/-- A receiver is a node of the tree, so it has a type or an error. -/
theorem Whole.exists_typeOf?_scope {id scope : NodeId} {n : Node}
    (hn : u.withScopes.nodes[id]? = some n) (hs : n.scope = some scope) :
    ∃ r, u.withScopes.typeOf? ix scope = some r := by
  have inside := (h.scope_before hn hs).1
  exact h.typeWithin_finished ix inside (h.withScopes.idxOf_order_lt inside)

/-- The type of a node is that of its expression on its receiver. -/
theorem Whole.typeOf?_eq_type {id : NodeId} {n : Node} (hn : u.withScopes.nodes[id]? = some n) :
    u.withScopes.typeOf? ix id =
      some ((u.withScopes.expr id).type ix (n.scope.bind (u.withScopes.typeOf? ix)) n.direct) := by
  induction id using Nat.strongRecOn generalizing n with
  | ind id ih =>
    have settled : u.withScopes.Settled := fun p n hn part => h.withScopes_part hn
    rw [h.typeOf?_eq ix (Array.getElem?_eq_some_iff.1 hn).1,
      typeStep_eq h.withScopes.downward settled hn (fun scope => h.exists_typeOf?_scope ix hn)
        fun c k hc hk => ih c hc hk]
    rfl

theorem Whole.typeOf?_root :
    u.withScopes.typeOf? ix u.root = some (u.withScopes.rootExpr.type ix none false) := by
  obtain ⟨n, hn, scope, direct⟩ := h.withScopes_root
  have root := h.typeOf?_eq_type ix hn
  rwa [scope, direct] at root

end recursion

end Tree

theorem typeOf?_root {text : List Char} {t : Tree} (h : compile text = .ok t) (ix : Index) :
    t.typeOf? ix t.root = some (t.rootExpr.type ix none false) := by
  obtain ⟨u, whole, rfl⟩ := whole_of_compile h
  exact whole.typeOf?_root ix

/-- A marker that is the accessor of the whole text has the type of the source. -/
theorem typeOf?_accessor {text : List Char} {t : Tree} (h : compile text = .ok t)
    {accessor source : NodeId} (hr : t.shape? t.root = some (.property accessor source))
    (hm : t.shape? accessor = some .marker) :
    t.isDirect accessor ∧
      ∀ ix, t.typeOf? ix accessor = some ((t.expr source).type ix none false) := by
  obtain ⟨u, whole, rfl⟩ := whole_of_compile h
  obtain ⟨n, hn, scope, -⟩ := whole.withScopes_root
  have shape : n.shape = .property accessor source := by
    rw [Tree.shape?, show u.withScopes.root = u.root from rfl, hn] at hr
    exact Option.some.inj hr
  have access : (accessor, some source, true) ∈ Tree.handedDown n := by simp [Tree.handedDown, shape]
  have supply : (source, n.scope, false) ∈ Tree.handedDown n := by simp [Tree.handedDown, shape]
  obtain ⟨m, am, scope', direct⟩ := whole.withScopes_part hn access
  obtain ⟨k, sk, scope'', direct'⟩ := whole.withScopes_part hn supply
  dsimp only at am scope' direct sk scope'' direct'
  have marker : m.shape = .marker := by
    rw [Tree.shape?, am] at hm
    exact Option.some.inj hm
  refine ⟨by rw [Tree.isDirect, am, Option.any_some, direct], fun ix => ?_⟩
  have answer := whole.typeOf?_eq_type ix sk
  rw [scope'', scope, direct'] at answer
  rw [whole.typeOf?_eq_type ix am, Tree.expr_eq whole.withScopes.downward am, marker, scope',
    direct, Option.bind_some, answer]
  rfl

/-- The names that are values by themselves. -/
def isTruth (name : String) : Bool := lowered name = "true" || lowered name = "false"

namespace Expr

variable (ix : Index) (owner : Answer) (name : String) (argument : Option Expr)

def lookedUp : Answer := do (← owner).property ix (lowered name) (← argumentKey ix argument (some owner))

def itemOf? : Option Answer := owner.toOption.bind fun ty => tupleItem? ty name argument

theorem itemOf?_eq_some {owner : Answer} {name : String} {argument : Option Expr} {item : Answer}
    (h : itemOf? owner name argument = some item) :
    ∃ items digits, owner = .ok (.tuple items) ∧ lowered name = "item" ∧
      argument = some (.node (.number digits)) := by
  obtain ⟨ty, hty, found⟩ := Option.bind_eq_some_iff.1 h
  obtain rfl : owner = .ok ty := by
    cases owner with
    | error => cases hty
    | ok => cases hty; rfl
  unfold tupleItem? at found
  split at found <;> try cases found
  split at found <;> try cases found
  rename_i items named
  split at found <;> try cases found
  rename_i digits number
  obtain ⟨⟨shape⟩, rfl, rfl⟩ := Option.map_eq_some_iff.1 number
  exact ⟨items, digits, rfl, named, rfl⟩

theorem itemOf?_of_isTruth {name : String} (h : isTruth name) : itemOf? owner name argument = none := by
  cases hi : itemOf? owner name argument with
  | none => rfl
  | some item =>
    obtain ⟨-, -, -, named, -⟩ := itemOf?_eq_some hi
    rw [isTruth, named] at h
    cases h

variable (source filter : Expr) (receiver : Option Answer) (direct : Bool)

/-- A bare phrase is an item of the receiver, or looked up. -/
theorem type_bare : (node (.property (node (.phrase name argument)) source)).type ix receiver direct =
    (itemOf? (source.type ix receiver false) name argument).getD
      (lookedUp ix (source.type ix receiver false) name argument) := by
  rw [type]
  generalize source.type ix receiver false = owner
  cases owner with
  | error e => rfl
  | ok ty =>
    change (match tupleItem? ty name argument with | some item => item | none => _) =
      (tupleItem? ty name argument).getD _
    cases tupleItem? ty name argument <;> rfl

/-- A filtered phrase is a value by itself, or looked up, the argument first. -/
theorem type_filtered :
    (node (.property (node (.whose (node (.phrase name argument)) filter)) source)).type ix receiver
      direct = if isTruth name then .ok .boolean else
        argumentKey ix argument (some (source.type ix receiver false)) >>= fun params =>
          source.type ix receiver false >>= fun ty => ty.property ix (lowered name) params := by
  rw [type_property_of_not_phrase _ _ _ _ (by simp), type, type]
  rfl

/-- Whether the argument or the receiver comes first makes no difference but to the error. -/
theorem lookedUp_eq_ok_iff (ty : Ty) : lookedUp ix owner name argument = .ok ty ↔
    (argumentKey ix argument (some owner) >>= fun params =>
      owner >>= fun ty => ty.property ix (lowered name) params) = .ok ty := by
  unfold lookedUp
  cases owner <;> cases argumentKey ix argument _ <;> simp [bind, Except.bind]

end Expr

end InventoryQuery
