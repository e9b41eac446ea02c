import ByteFormula.Proofs.TreeBranches

/-! Trees laid out in an arena. Every array that has been read takes the next slot and names the
slot it was read from; the array above keeps the slot under the index of the element. An element
that is overwritten only loses its link, its slot stays. A run either ends with a value or an error
and the arena as it stands then, or it does not end at all. -/
namespace ByteFormula

/-- One array of an arena. `dirty` says that something here or below changed since the last
write-back, `unwritten` that the element above is older than this array. -/
structure Arena.Node where
  array : LazyArray
  /-- The slot of the array above, and the index of the element this array was read from. -/
  parent : Option (Nat × UInt8)
  children : UInt8 → Option Nat
  dirty : Bool
  unwritten : Bool

structure Arena where
  nodes : List Arena.Node

namespace Arena

namespace Node

def fresh (array : LazyArray) (parent : Option (Nat × UInt8)) : Node :=
  ⟨array, parent, fun _ => none, false, false⟩

def withArray (node : Node) (array : LazyArray) : Node :=
  { node with array := array }

def link (node : Node) (index : UInt8) (child : Option Nat) : Node :=
  { node with children := fun i => if i = index then child else node.children i }

def mark (node : Node) : Node :=
  { node with dirty := true, unwritten := true }

def clean (node : Node) : Node :=
  { node with dirty := false }

def written (node : Node) : Node :=
  { node with unwritten := false }

def links (node : Node) : List (UInt8 × Nat) :=
  (List.range UInt8.size).filterMap fun i =>
    (node.children (.ofNat i)).map fun child => (.ofNat i, child)

theorem mem_links {node : Node} {index : UInt8} {child : Nat} :
    (index, child) ∈ node.links ↔ node.children index = some child := by
  simp only [links, List.mem_filterMap, List.mem_range, Option.map_eq_some_iff, Prod.mk.injEq]
  constructor
  · rintro ⟨i, -, c, hchild, rfl, rfl⟩
    exact hchild
  · intro hchild
    exact ⟨index.toNat, index.toNat_lt, child, by simpa using hchild, by simp, rfl⟩

theorem sorted_links (node : Node) : (node.links.map Prod.fst).Pairwise (· < ·) := by
  rw [links, List.map_filterMap, List.pairwise_filterMap]
  refine List.Pairwise.imp_of_mem ?_ List.pairwise_lt_range
  intro i j hi hj hlt first hfirst second hsecond
  simp only [Option.map_map, Option.map_eq_some_iff, Function.comp] at hfirst hsecond
  obtain ⟨-, -, rfl⟩ := hfirst
  obtain ⟨-, -, rfl⟩ := hsecond
  rw [List.mem_range] at hi hj
  rw [UInt8.lt_iff_toNat_lt, UInt8.toNat_ofNat', UInt8.toNat_ofNat', Nat.mod_eq_of_lt hi,
    Nat.mod_eq_of_lt hj]
  exact hlt

end Node

def ofArray (array : LazyArray) : Arena :=
  ⟨[.fresh array none]⟩

def slots (arena : Arena) : Nat :=
  arena.nodes.length

def node? (arena : Arena) (id : Nat) : Option Node :=
  arena.nodes[id]?

def update (arena : Arena) (id : Nat) (change : Node → Node) : Arena :=
  ⟨arena.nodes.modify id change⟩

def attach (arena : Arena) (id : Nat) (index : UInt8) (array : LazyArray) : Arena :=
  update ⟨arena.nodes ++ [.fresh array (some (id, index))]⟩ id fun node =>
    node.link index (some arena.slots)

/-- A computation on an arena that may fail, which leaves the changes made until then, and that may
also never end or look at a slot that is not there. -/
abbrev Act := ExceptT DataError (StateT Arena Option)

def stuck {α : Type} : Act α :=
  ExceptT.lift (StateT.lift none)

def look (id : Nat) : Act Node := do
  match (← get).node? id with
  | some node => pure node
  | none => stuck

def change (id : Nat) (change : Node → Node) : Act Unit :=
  modify fun arena => arena.update id change

def onArray {α : Type} (id : Nat) (ask : LazyArray → Except DataError α × LazyArray) : Act α := do
  let node ← look id
  change id fun old => old.withArray (ask node.array).2
  liftExcept (ask node.array).1

def invalidateWithin : (room : Nat) → Nat → Act Unit
  | 0, _ => stuck
  | room + 1, id => do
    let node ← look id
    change id Node.mark
    match node.parent with
    | none => pure ()
    | some (parent, _) => invalidateWithin room parent

/-- Marks an array and all above it. A way up that is longer than there are slots comes back to one
that it has passed, so it never ends. -/
def invalidate (id : Nat) : Act Unit := do
  invalidateWithin (← get).slots id

def putBack (id : Nat) (index : UInt8) (child : Nat) : Act Unit := do
  let packed ← onArray child LazyArray.bytes
  onArray id fun array => array.set index.toNat packed
  change child Node.written

/-- Writes one array back unless the element above is up to date. What is below it is written back
before that, by `refresh`. -/
def writeElement (refresh : Nat → Act Unit) (id : Nat) (index : UInt8) (child : Nat) : Act Unit := do
  let node ← look child
  if node.unwritten then
    refresh child
    putBack id index child

def writeBack (refresh : Nat → Act Unit) (id : Nat) : List (UInt8 × Nat) → Act Unit
  | [] => pure ()
  | (index, child) :: rest => do
    writeElement refresh id index child
    writeBack refresh id rest

/-- Writes every changed array below back into the element above it, if no way down is longer than
`room`. -/
def syncWithin : (room : Nat) → Nat → Act Unit
  | 0, _ => stuck
  | room + 1, id => do
    let node ← look id
    if node.dirty then
      writeBack (syncWithin room) id node.links
      change id Node.clean

/-- Writes every changed array below back into the element above it. A way down that is longer than
there are slots comes back to one that it has passed, and is taken for one that never ends. -/
def sync (id : Nat) : Act Unit := do
  syncWithin (← get).slots id

def bytesOf (id : Nat) : Act Bytes := do
  sync id
  onArray id LazyArray.bytes

def bytes : Act Bytes :=
  bytesOf 0

def blame (trail : Path) (index : UInt8) : DataError → DataError
  | .indexOutOfBounds _ _ => .pathNotFound (trail.child index)
  | _ => .notAnArray trail

def blamed {α : Type} (trail : Path) (index : UInt8) : Except DataError α → Except DataError α
  | .ok value => .ok value
  | .error e => .error (blame trail index e)

/-- The array under an index of another, which is read unless that has been done. `trail` is the path
walked so far. -/
def enter (trail : Path) (id : Nat) (index : UInt8) : Act Nat := do
  let node ← look id
  match node.children index with
  | some child => pure child
  | none =>
    let element ← onArray id fun array =>
      (blamed trail index (array.get index.toNat).1, (array.get index.toNat).2)
    match (LazyArray.ofBytes element Tree.maxElements).materialize with
    | .error _ => throw (.notAnArray (trail.child index))
    | .ok own => modifyGet fun arena => (arena.slots, arena.attach id index own)

def descend (trail : Path) (id : Nat) : Path → Act Nat
  | [] => pure id
  | index :: rest => do
    let child ← enter trail id index
    descend (trail.child index) child rest

/-- The slot of the array at a path. Only the array at the top may still have to be unpacked. -/
def locate : Path → Act Nat
  | [] => do
    onArray 0 fun array =>
      match array.materialize with
      | .error _ => (.error (.notAnArray []), array)
      | .ok opened => (.ok 0, opened)
  | path => descend [] 0 path

def elementBytes (path : Path) (index : UInt8) (id : Nat) : Act Bytes := do
  let node ← look id
  match node.children index with
  | some child => bytesOf child
  | none =>
    onArray id fun array =>
      match array.get index.toNat with
      | (.error (.indexOutOfBounds _ _), after) => (.error (.pathNotFound path), after)
      | (result, after) => (result, after)

def bytesAt (path : Path) : Act Bytes :=
  match path.getLast? with
  | none => bytes
  | some index => do
    let id ← locate path.dropLast
    elementBytes path index id

def lengthAt (path : Path) : Act Nat := do
  let id ← locate path
  onArray id LazyArray.length

def isFullAt (path : Path) : Act Bool := do
  let id ← locate path
  onArray id LazyArray.isFull

def pushAt (data : Bytes) (path : Path) : Act UInt8 := do
  let id ← locate path
  let index ← onArray id fun array => array.push data
  invalidate id
  pure (.ofNat index)

/-- Overwrites an element of the array at a path, and unlinks what was read from it. -/
def setAt (index : UInt8) (data : Bytes) (path : Path) : Act Unit := do
  let id ← locate path
  onArray id fun array => array.set index.toNat data
  change id fun node => node.link index none
  invalidate id

def subtreeAt (path : Path) : Act Arena := do
  let packed ← bytesAt path
  match (LazyArray.ofBytes packed Tree.maxElements).materialize with
  | .error _ => throw (.notAnArray path)
  | .ok array => pure (ofArray array)

/-- A computation ends, and what it returns and leaves satisfies `post`. -/
def Ends {α : Type} (act : Act α) (arena : Arena) (post : Except DataError α → Arena → Prop) :
    Prop :=
  ∃ result after, act.run.run arena = some (result, after) ∧ post result after

/-- What has to hold between two computations for `post` to hold after both: an error passes by the
second one. -/
def Follows {α β : Type} (next : α → Act β) (post : Except DataError β → Arena → Prop) :
    Except DataError α → Arena → Prop
  | .ok value, arena => Ends (next value) arena post
  | .error e, arena => post (.error e) arena

section

variable {α β : Type} {arena : Arena} {post : Except DataError α → Arena → Prop}

@[simp]
theorem ends_pure (value : α) : Ends (pure value) arena post ↔ post (.ok value) arena := by
  constructor
  · rintro ⟨_, _, hrun, hpost⟩
    cases hrun
    exact hpost
  · exact fun hpost => ⟨_, _, rfl, hpost⟩

@[simp]
theorem ends_throw (e : DataError) :
    Ends (throw e : Act α) arena post ↔ post (.error e) arena := by
  constructor
  · rintro ⟨_, _, hrun, hpost⟩
    cases hrun
    exact hpost
  · exact fun hpost => ⟨_, _, rfl, hpost⟩

@[simp]
theorem ends_liftExcept (result : Except DataError α) :
    Ends (liftExcept result) arena post ↔ post result arena := by
  cases result with
  | ok value => exact ends_pure value
  | error e => exact ends_throw e

theorem Ends.mono {act : Act α} {weaker : Except DataError α → Arena → Prop}
    (h : Ends act arena post) (hpost : ∀ result after, post result after → weaker result after) :
    Ends act arena weaker := by
  obtain ⟨result, after, hrun, hholds⟩ := h
  exact ⟨result, after, hrun, hpost _ _ hholds⟩

/-- A computation ends in one way only. -/
theorem Ends.and {act : Act α} {other : Except DataError α → Arena → Prop}
    (h : Ends act arena post) (hother : Ends act arena other) :
    Ends act arena fun result after => post result after ∧ other result after := by
  obtain ⟨result, after, hrun, hpost⟩ := h
  obtain ⟨same, again, hsame, hagain⟩ := hother
  cases hrun.symm.trans hsame
  exact ⟨result, after, hrun, hpost, hagain⟩

@[simp]
theorem ends_bind (act : Act β) (next : β → Act α) :
    Ends (act >>= next) arena post ↔ Ends act arena (Follows next post) := by
  have hbind : (act >>= next).run.run arena = (act.run.run arena).bind fun outcome =>
      match outcome with
      | (.ok value, after) => (next value).run.run after
      | (.error e, after) => some (.error e, after) := by
    refine congrArg (Option.bind (act.run.run arena)) (funext fun outcome => ?_)
    obtain ⟨_ | _, _⟩ := outcome <;> rfl
  constructor
  · rintro ⟨result, after, hrun, hpost⟩
    obtain ⟨⟨middle, between⟩, hact, hnext⟩ := Option.bind_eq_some_iff.mp (hbind ▸ hrun)
    refine ⟨middle, between, hact, ?_⟩
    cases middle with
    | ok value => exact ⟨result, after, hnext, hpost⟩
    | error e =>
      cases hnext
      exact hpost
  · rintro ⟨middle, between, hact, hfollows⟩
    cases middle with
    | ok value =>
      obtain ⟨result, after, hnext, hpost⟩ := hfollows
      exact ⟨result, after, by rw [hbind, hact]; exact hnext, hpost⟩
    | error e => exact ⟨.error e, between, by rw [hbind, hact]; rfl, hfollows⟩

@[simp]
theorem follows_ok (next : β → Act α) (value : β) :
    Follows next post (.ok value) arena ↔ Ends (next value) arena post :=
  .rfl

@[simp]
theorem follows_error (next : β → Act α) (e : DataError) :
    Follows next post (.error e) arena ↔ post (.error e) arena :=
  .rfl

theorem ends_look {post : Except DataError Node → Arena → Prop} {id : Nat} {node : Node}
    (hnode : arena.node? id = some node) : Ends (look id) arena post ↔ post (.ok node) arena := by
  have hrun : (look id).run.run arena = some (.ok node, arena) := by
    change (match arena.node? id with
      | some node => (pure node : Act Node)
      | none => stuck).run.run arena = _
    rw [hnode]
    rfl
  constructor
  · rintro ⟨_, _, hother, hpost⟩
    cases hrun.symm.trans hother
    exact hpost
  · exact fun hpost => ⟨_, _, hrun, hpost⟩

theorem ends_invalidate_iff {post : Except DataError Unit → Arena → Prop} (id : Nat) :
    Ends (invalidate id) arena post ↔ Ends (invalidateWithin arena.slots id) arena post :=
  .rfl

theorem ends_sync_iff {post : Except DataError Unit → Arena → Prop} (id : Nat) :
    Ends (sync id) arena post ↔ Ends (syncWithin arena.slots id) arena post :=
  .rfl

@[simp]
theorem ends_change {post : Except DataError Unit → Arena → Prop} (id : Nat)
    (update : Node → Node) :
    Ends (change id update) arena post ↔ post (.ok ()) (arena.update id update) := by
  constructor
  · rintro ⟨_, _, hrun, hpost⟩
    cases hrun
    exact hpost
  · exact fun hpost => ⟨_, _, rfl, hpost⟩

@[simp]
theorem ends_modifyGet (step : Arena → α × Arena) :
    Ends (modifyGet step) arena post ↔ post (.ok (step arena).1) (step arena).2 := by
  constructor
  · rintro ⟨_, _, hrun, hpost⟩
    cases hrun
    exact hpost
  · exact fun hpost => ⟨_, _, rfl, hpost⟩

theorem ends_onArray {id : Nat} {node : Node} (hnode : arena.node? id = some node)
    (ask : LazyArray → Except DataError α × LazyArray) :
    Ends (onArray id ask) arena post ↔
      post (ask node.array).1 (arena.update id fun old => old.withArray (ask node.array).2) := by
  simp only [onArray, ends_bind, ends_look hnode, follows_ok, ends_change, ends_liftExcept]

end

section

variable {arena : Arena}

@[simp]
theorem slots_update (id : Nat) (change : Node → Node) :
    (arena.update id change).slots = arena.slots := by
  simp [update, slots]

theorem node?_update (id other : Nat) (change : Node → Node) :
    (arena.update id change).node? other =
      if other = id then (arena.node? id).map change else arena.node? other := by
  simp only [update, node?, List.getElem?_modify]
  split <;> rename_i h
  · simp [h]
  · simp [h, eq_comm]

theorem node?_update_self {id : Nat} {node : Node} (change : Node → Node)
    (hnode : arena.node? id = some node) :
    (arena.update id change).node? id = some (change node) := by
  simp [node?_update, hnode]

theorem node?_update_other {id other : Nat} (change : Node → Node) (h : other ≠ id) :
    (arena.update id change).node? other = arena.node? other := by
  simp [node?_update, h]

theorem node?_eq_some_of_lt {id : Nat} (h : id < arena.slots) :
    ∃ node, arena.node? id = some node :=
  ⟨_, List.getElem?_eq_getElem h⟩

theorem lt_slots {id : Nat} {node : Node} (hnode : arena.node? id = some node) : id < arena.slots :=
  (List.getElem?_eq_some_iff.mp hnode).1

theorem slots_attach (id : Nat) (index : UInt8) (array : LazyArray) :
    (arena.attach id index array).slots = arena.slots + 1 := by
  rw [attach, slots_update]
  simp [slots]

theorem node?_attach_new {id : Nat} (hid : id < arena.slots) (index : UInt8) (array : LazyArray) :
    (arena.attach id index array).node? arena.slots = some (.fresh array (some (id, index))) := by
  rw [attach, node?_update_other _ (Nat.ne_of_gt hid)]
  simp [node?, slots]

theorem node?_attach_old {id other : Nat} (hid : id < arena.slots) (hother : other < arena.slots)
    (index : UInt8) (array : LazyArray) :
    (arena.attach id index array).node? other =
      (arena.update id fun node => node.link index (some arena.slots)).node? other := by
  have hold : ∀ i, i < arena.slots →
      node? ⟨arena.nodes ++ [.fresh array (some (id, index))]⟩ i = arena.node? i :=
    fun i hi => List.getElem?_append_left hi
  rw [attach, node?_update, node?_update, hold id hid, hold other hother]

end
end Arena
end ByteFormula
