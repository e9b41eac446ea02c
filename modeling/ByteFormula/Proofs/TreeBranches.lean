import ByteFormula.Proofs.TreeCoherence

/-! Where the branches of a tree stand. An element that has been read as an array is kept under its
index, and the array above is open and has an element there. No operation closes an array or takes
an element away, so this holds in every session, also after refusals and with arrays that are too
long to be packed. -/
namespace ByteFormula

namespace LazyArray

def Reaches (array : LazyArray) (index : Nat) : Prop :=
  ∃ elements cached, array.form = .opened elements cached ∧ index < elements.size

/-- What may become of an array: its limit stays, and whatever it reaches it goes on reaching. -/
structure Grows (before after : LazyArray) : Prop where
  limit : after.limit = before.limit
  reaches : ∀ {index : Nat}, before.Reaches index → after.Reaches index

section

variable {array middle after : LazyArray}

theorem Grows.refl (array : LazyArray) : array.Grows array :=
  ⟨rfl, id⟩

theorem Grows.trans (h : array.Grows middle) (h' : middle.Grows after) : array.Grows after :=
  ⟨h'.limit.trans h.limit, fun hreaches => h'.reaches (h.reaches hreaches)⟩

/-- An array that was not open had nothing within reach. -/
theorem grows_of_not_opened (hform : ∀ elements cached, array.form ≠ .opened elements cached)
    (hlimit : after.limit = array.limit) : array.Grows after :=
  ⟨hlimit, fun ⟨elements, cached, hopened, _⟩ => absurd hopened (hform elements cached)⟩

private theorem grows_of_opened {elements changed : Array Bytes} {cached kept : Option Bytes}
    {limit : Nat} (hsize : elements.size ≤ changed.size) :
    Grows ⟨.opened elements cached, limit⟩ ⟨.opened changed kept, limit⟩ := by
  refine ⟨rfl, fun ⟨_, _, hform, hindex⟩ => ⟨changed, kept, rfl, ?_⟩⟩
  cases hform
  exact Nat.lt_of_lt_of_le hindex hsize

theorem grows_materialize (h : array.materialize = .ok after) :
    array.Grows after ∧ ∃ elements cached, after.form = .opened elements cached := by
  obtain ⟨form, limit⟩ := array
  cases form with
  | absent => cases h
  | packed raw =>
    simp only [materialize] at h
    split at h
    · cases h
    · cases h
      exact ⟨grows_of_not_opened (fun _ _ h => by cases h) rfl, _, _, rfl⟩
  | opened elements cached =>
    cases h
    exact ⟨.refl _, _, _, rfl⟩

theorem grows_read {α : Type} (array : LazyArray) (answer : Array Bytes → Except DataError α) :
    array.Grows (array.read answer).2 := by
  unfold read
  cases hopen : array.materialize with
  | error e => exact .refl array
  | ok opened =>
    obtain ⟨hgrows, elements, cached, hform⟩ := grows_materialize hopen
    simp only [hform]
    exact hgrows

private theorem grows_get (array : LazyArray) (index : Nat) : array.Grows (array.get index).2 :=
  array.grows_read _

theorem reaches_of_get {index : Nat} {element : Bytes} (h : array.get index = (.ok element, after)) :
    after.Reaches index := by
  unfold get read at h
  cases hopen : array.materialize with
  | error e => rw [hopen] at h; cases h
  | ok opened =>
    obtain ⟨-, elements, cached, hform⟩ := grows_materialize hopen
    simp only [hopen, hform, Prod.mk.injEq] at h
    obtain ⟨hfound, rfl⟩ := h
    refine ⟨elements, cached, hform, ?_⟩
    split at hfound
    · exact (Array.getElem?_eq_some_iff.mp ‹_›).1
    · cases hfound

theorem grows_push (array : LazyArray) (data : Bytes) : array.Grows (array.push data).2 := by
  unfold push
  split
  · exact .refl array
  cases hopen : array.materialize with
  | error e => exact .refl array
  | ok opened =>
    obtain ⟨hgrows, elements, cached, hform⟩ := grows_materialize hopen
    obtain ⟨form, limit⟩ := opened
    cases hform
    simp only
    split
    · exact hgrows.trans (grows_of_opened (Nat.le_refl _))
    · exact hgrows.trans (grows_of_opened (by simp))

theorem grows_set (array : LazyArray) (index : Nat) (data : Bytes) :
    array.Grows (array.set index data).2 := by
  unfold set
  split
  · exact .refl array
  cases hopen : array.materialize with
  | error e => exact .refl array
  | ok opened =>
    obtain ⟨hgrows, elements, cached, hform⟩ := grows_materialize hopen
    obtain ⟨form, limit⟩ := opened
    cases hform
    simp only
    split
    · exact hgrows.trans (grows_of_opened (by simp))
    · exact hgrows

theorem grows_bytes (array : LazyArray) : array.Grows array.bytes.2 := by
  obtain ⟨form, limit⟩ := array
  cases form with
  | absent => exact .refl _
  | packed raw => exact .refl _
  | opened elements cached =>
    cases cached with
    | some bytes => exact .refl _
    | none =>
      simp only [bytes]
      split
      · exact .refl _
      · exact grows_of_opened (Nat.le_refl _)

end
end LazyArray

mutual
/-- Every branch, at any depth, stands under an element of the open array above it, and holds as
many elements as an index can tell apart. -/
def Tree.Anchored : Tree → Prop
  | .node array branches _ _ => Branches.Anchored array branches

def Branches.Anchored (array : LazyArray) : Branches → Prop
  | .none => True
  | .branch index tree rest =>
    (array.Reaches index.toNat ∧ tree.array.limit = Tree.maxElements ∧ tree.Anchored) ∧
      Branches.Anchored array rest
end

namespace Branches

variable {array after : LazyArray} {index : UInt8} {child : Tree}

theorem Anchored.get? {branches : Branches} (h : branches.Anchored array)
    (hget : branches.get? index = some child) :
    array.Reaches index.toNat ∧ child.array.limit = Tree.maxElements ∧ child.Anchored := by
  fun_induction Branches.get? index branches with
  | case1 => cases hget
  | case2 tree rest =>
    cases hget
    exact h.1
  | case3 i tree rest hne ih => exact ih h.2 hget

private theorem Anchored.grow (hgrows : array.Grows after) :
    {branches : Branches} → branches.Anchored array → branches.Anchored after
  | .none, _ => trivial
  | .branch _ _ _, ⟨⟨hreaches, hchild⟩, hrest⟩ =>
    ⟨⟨hgrows.reaches hreaches, hchild⟩, Anchored.grow hgrows hrest⟩

theorem Anchored.put {branches : Branches} (h : branches.Anchored array)
    (hindex : array.Reaches index.toNat) (hlimit : child.array.limit = Tree.maxElements)
    (hchild : child.Anchored) : (branches.put index child).Anchored array := by
  fun_induction Branches.put index child branches with
  | case1 => exact ⟨⟨hindex, hlimit, hchild⟩, trivial⟩
  | case2 rest old => exact ⟨⟨hindex, hlimit, hchild⟩, h.2⟩
  | case3 i old rest hne hlt => exact ⟨⟨hindex, hlimit, hchild⟩, h⟩
  | case4 i old rest hne hlt ih => exact ⟨h.1, ih h.2⟩

theorem Anchored.erase {branches : Branches} (h : branches.Anchored array) (index : UInt8) :
    (branches.erase index).Anchored array := by
  fun_induction Branches.erase index branches with
  | case1 => trivial
  | case2 tree rest ih => exact ih h.2
  | case3 i tree rest hne ih => exact ⟨h.1, ih h.2⟩

end Branches

/-- What may become of a tree whose branches are anchored. -/
structure Tree.Develops (before after : Tree) : Prop where
  anchored : after.Anchored
  grows : before.array.Grows after.array

namespace Tree

variable {tree after : Tree}

theorem anchored_iff : tree.Anchored ↔ tree.branches.Anchored tree.array := by
  cases tree
  rfl

theorem anchored_ofArray (array : LazyArray) : (ofArray array).Anchored := trivial

theorem Anchored.withArray (h : tree.Anchored) {array : LazyArray}
    (hgrows : tree.array.Grows array) : tree.Develops (tree.withArray array) :=
  ⟨(anchored_iff.mp h).grow hgrows, hgrows⟩

theorem Anchored.put (h : tree.Anchored) {index : UInt8} {child : Tree}
    (hindex : tree.array.Reaches index.toNat) (hlimit : child.array.limit = maxElements)
    (hchild : child.Anchored) : tree.Develops (tree.withBranches (tree.branches.put index child)) :=
  ⟨(anchored_iff.mp h).put hindex hlimit hchild, .refl _⟩

theorem Develops.refl (h : tree.Anchored) : tree.Develops tree :=
  ⟨h, .refl _⟩

theorem Develops.trans {middle : Tree} (h : tree.Develops middle) (h' : middle.Develops after) :
    tree.Develops after :=
  ⟨h'.anchored, h.grows.trans h'.grows⟩

/-- A branch that is written is still anchored, whether it could be written or not. -/
theorem putBack_develops (h : tree.Anchored) (index : UInt8) (array : LazyArray) :
    tree.Develops (tree.putBack index array).2.2 ∧ array.Grows (tree.putBack index array).2.1 := by
  have hpacked := h.withArray tree.array.grows_bytes
  rcases hbytes : tree.array.bytes with ⟨e | packed, own⟩
  · rw [hbytes] at hpacked
    simp only [putBack, hbytes]
    exact ⟨hpacked, .refl array⟩
  · rw [hbytes] at hpacked
    have hset := array.grows_set index.toNat packed
    rcases hstored : array.set index.toNat packed with ⟨e | done, filled⟩
    · rw [hstored] at hset
      simp only [putBack, hbytes, hstored]
      exact ⟨hpacked, hset⟩
    · rw [hstored] at hset
      simp only [putBack, hbytes, hstored]
      exact ⟨⟨anchored_iff.mp hpacked.anchored, hpacked.grows⟩, hset⟩

private theorem writeInto_develops (h : tree.Anchored) (hsync : tree.Develops tree.sync.2)
    (index : UInt8) (array : LazyArray) :
    tree.Develops (tree.writeInto index array).2.2 ∧
      array.Grows (tree.writeInto index array).2.1 := by
  unfold writeInto
  split
  · rcases hrun : tree.sync with ⟨e | done, synced⟩
    · rw [hrun] at hsync
      exact ⟨hsync, .refl array⟩
    · rw [hrun] at hsync
      obtain ⟨hput, hgrows⟩ := putBack_develops hsync.anchored index array
      exact ⟨hsync.trans hput, hgrows⟩
  · exact ⟨.refl h, .refl array⟩

end Tree

mutual
theorem Tree.sync_develops : (tree : Tree) → tree.Anchored → tree.Develops tree.sync.2
  | .node array branches dirty unwritten, h => by
    obtain ⟨hafter, hgrows⟩ := Branches.writeBack_develops branches h
    rw [Tree.sync]
    split
    · split
      all_goals
        rename_i hwritten
        rw [hwritten] at hafter hgrows
        exact ⟨hafter, hgrows⟩
    · exact ⟨h, .refl _⟩

theorem Branches.writeBack_develops : (branches : Branches) → {array : LazyArray} →
    branches.Anchored array →
    Branches.Anchored (branches.writeBack array).2.1 (branches.writeBack array).2.2 ∧
      array.Grows (branches.writeBack array).2.1
  | .none, array, _ => ⟨trivial, .refl _⟩
  | .branch index tree rest, array, ⟨⟨hreaches, hlimit, htree⟩, hrest⟩ => by
    obtain ⟨hafter, hset⟩ :=
      Tree.writeInto_develops htree (Tree.sync_develops tree htree) index array
    rcases hinto : tree.writeInto index array with ⟨e | done, filled, after⟩
    · rw [hinto] at hafter hset
      rw [Branches.writeBack_of_error hinto]
      exact ⟨⟨⟨hset.reaches hreaches, hafter.grows.limit.trans hlimit, hafter.anchored⟩,
        hrest.grow hset⟩, hset⟩
    · rw [hinto] at hafter hset
      rw [Branches.writeBack_of_ok hinto]
      -- The rest is written into the array that has this branch in it already.
      obtain ⟨hwritten, hgrows⟩ := Branches.writeBack_develops rest (hrest.grow hset)
      have hall := hset.trans hgrows
      exact ⟨⟨⟨hall.reaches hreaches, hafter.grows.limit.trans hlimit, hafter.anchored⟩, hwritten⟩,
        hall⟩
end

namespace Tree

variable {tree after : Tree}

private theorem bytes_develops (h : tree.Anchored) : tree.Develops tree.bytes.2 := by
  have hsync := sync_develops tree h
  unfold bytes
  split
  · rename_i hfailed
    rw [hfailed] at hsync
    exact hsync
  · rename_i synced hsynced
    rw [hsynced] at hsync
    exact hsync.trans (hsync.anchored.withArray synced.array.grows_bytes)

theorem Develops.settle {α : Type} (h : tree.Develops after) (writes : Bool)
    (result : Except DataError α) : tree.Develops (Tree.settle writes result after).2 := by
  cases result with
  | error e => exact h
  | ok value =>
    cases writes with
    | false => exact h
    | true => exact ⟨anchored_iff.mp h.anchored, h.grows⟩

def Action.Anchors {α : Type} (act : Action α) : Prop :=
  ∀ ⦃tree : Tree⦄, tree.Anchored → tree.Develops (act tree).2

section

variable {α : Type} {act : Action α}

/-- A visit keeps branches anchored if its action does. The nodes on the way keep their elements,
so a branch that is put back stands where it stood. -/
theorem visit_develops (hact : act.Anchors) (writes : Bool) (trail path : Path)
    (h : tree.Anchored) : tree.Develops (visit writes act trail path tree).2 := by
  induction path generalizing trail tree with
  | nil =>
    rw [visit]
    split
    · exact .refl h
    · rename_i array hopen
      have hopened := h.withArray (LazyArray.grows_materialize hopen).1
      exact (hopened.trans (hact hopened.anchored)).settle writes _
  | cons index rest ih =>
    rw [visit]
    split
    · rename_i child hget
      obtain ⟨hindex, hlimit, hchild⟩ := (anchored_iff.mp h).get? hget
      have hbelow := ih (trail.child index) hchild
      exact (h.put hindex (hbelow.grows.limit.trans hlimit) hbelow.anchored).settle writes _
    · have hread := h.withArray (tree.array.grows_get index.toNat)
      split
      · rename_i hfound
        rw [hfound] at hread
        exact hread
      · rename_i hfound
        rw [hfound] at hread
        exact hread
      · rename_i element array hfound
        have hreaches := LazyArray.reaches_of_get hfound
        rw [hfound] at hread
        split
        · exact hread
        · rename_i own hopen
          have hbelow := ih (trail.child index) (anchored_ofArray own)
          have hlimit := hbelow.grows.limit.trans (LazyArray.grows_materialize hopen).1.limit
          exact (hread.trans (hread.anchored.put hreaches hlimit hbelow.anchored)).settle writes _

private theorem anchors_onArray {ask : LazyArray → Except DataError α × LazyArray}
    (hask : ∀ array : LazyArray, array.Grows (ask array).2) : (onArray ask).Anchors :=
  fun tree h => h.withArray (hask tree.array)

private theorem anchors_pushElement (data : Bytes) : (pushElement data).Anchors := by
  intro tree h
  have hpush := h.withArray (tree.array.grows_push data)
  unfold pushElement
  split
  · rename_i heq
    rw [heq] at hpush
    exact hpush
  · rename_i heq
    rw [heq] at hpush
    exact hpush

private theorem anchors_setElement (index : UInt8) (data : Bytes) :
    (setElement index data).Anchors := by
  intro tree h
  have hset := h.withArray (tree.array.grows_set index.toNat data)
  unfold setElement
  split
  · rename_i heq
    rw [heq] at hset
    exact hset
  · rename_i heq
    rw [heq] at hset
    exact ⟨(anchored_iff.mp hset.anchored).erase index, hset.grows⟩

private theorem anchors_elementBytes (path : Path) (index : UInt8) :
    (elementBytes path index).Anchors := by
  intro tree h
  unfold elementBytes
  split
  · rename_i child hget
    obtain ⟨hindex, hlimit, hchild⟩ := (anchored_iff.mp h).get? hget
    have hbelow := bytes_develops hchild
    exact h.put hindex (hbelow.grows.limit.trans hlimit) hbelow.anchored
  · have hread := h.withArray (tree.array.grows_get index.toNat)
    split
    · rename_i hfound
      rw [hfound] at hread
      exact hread
    · rename_i hfound
      rw [hfound] at hread
      exact hread
end

private theorem bytesAt_develops (h : tree.Anchored) (path : Path) :
    tree.Develops (tree.bytesAt path).2 := by
  unfold bytesAt
  split
  · exact bytes_develops h
  · exact visit_develops (anchors_elementBytes _ _) false [] _ h

private theorem pushAt_develops (h : tree.Anchored) (data : Bytes) (path : Path) :
    tree.Develops (tree.pushAt data path).2 :=
  visit_develops (anchors_pushElement data) true [] path h

private theorem setAt_develops (h : tree.Anchored) (index : UInt8) (data : Bytes) (path : Path) :
    tree.Develops (tree.setAt index data path).2 :=
  visit_develops (anchors_setElement index data) true [] path h

/-- The tree itself develops, and a copy that is handed out is anchored as well. -/
theorem subtreeAt_develops (h : tree.Anchored) (path : Path) :
    tree.Develops (tree.subtreeAt path).2 ∧ ∀ copy, (tree.subtreeAt path).1 = .ok copy →
      copy.Anchored ∧ copy.array.limit = maxElements := by
  have hread := bytesAt_develops h path
  unfold subtreeAt
  split
  · rename_i heq
    rw [heq] at hread
    exact ⟨hread, nofun⟩
  · rename_i heq
    rw [heq] at hread
    split
    · exact ⟨hread, nofun⟩
    · rename_i array hopen
      refine ⟨hread, fun copy hcopy => ?_⟩
      cases hcopy
      exact ⟨anchored_ofArray array, (LazyArray.grows_materialize hopen).1.limit⟩

end Tree

namespace Session

/-- The branches of all trees are anchored, and a tree has room for as many elements as an index can
tell apart, or for one of the given numbers. -/
def Grounded (limits : List Nat) (trees : List Tree) : Prop :=
  ∀ tree ∈ trees, tree.Anchored ∧
    (tree.array.limit = Tree.maxElements ∨ tree.array.limit ∈ limits)

section

variable {limits : List Nat} {trees : List Tree}

theorem Grounded.set (h : Grounded limits trees) {position : Nat} {tree after : Tree}
    (htree : trees[position]? = some tree) (hafter : tree.Develops after) :
    Grounded limits (trees.set position after) := by
  intro other hother
  rcases List.mem_or_eq_of_mem_set hother with hold | rfl
  · exact h other hold
  · have hlimit := (h tree (List.mem_of_getElem? htree)).2
    exact ⟨hafter.anchored, hafter.grows.limit ▸ hlimit⟩

theorem Grounded.append (h : Grounded limits trees) {tree : Tree} (htree : tree.Anchored)
    (hlimit : tree.array.limit = Tree.maxElements) : Grounded limits (trees ++ [tree]) := by
  intro other hother
  rcases List.mem_append.mp hother with hold | hnew
  · exact h other hold
  · cases List.mem_singleton.mp hnew
    exact ⟨htree, .inl hlimit⟩

private theorem on_grounded {α : Type} (h : Grounded limits trees) (position : Nat)
    (wrap : α → Answer) {act : Tree → Except DataError α × Tree}
    (hact : ∀ {tree : Tree}, tree.Anchored → tree.Develops (act tree).2) :
    Grounded limits (on trees position wrap act).2 := by
  unfold on
  split
  · exact h
  · rename_i tree htree
    exact h.set htree (hact (h tree (List.mem_of_getElem? htree)).1)

private theorem onWith_grounded {α : Type} (h : Grounded limits trees) (position other : Nat)
    (wrap : α → Answer) {act : Tree → Tree → Except DataError α × Tree}
    (hact : ∀ {tree source : Tree}, tree.Anchored → tree.Develops (act tree source).2) :
    Grounded limits (onWith trees position other wrap act).2 := by
  unfold onWith
  split
  · exact h
  · rename_i source hsource
    have hsync := Tree.bytes_develops (h source (List.mem_of_getElem? hsource)).1
    exact on_grounded (h.set hsource hsync) position wrap hact

/-- One request leaves all branches anchored, whether it succeeds or not. -/
theorem step_grounded (h : Grounded limits trees) (request : Request) :
    Grounded limits (step trees request).2 := by
  cases request with
  | empty => exact h.append (Tree.anchored_ofArray _) rfl
  | ofBytes raw => exact h.append (Tree.anchored_ofArray _) rfl
  | bytes tree => exact on_grounded h tree _ Tree.bytes_develops
  | bytesAt tree path => exact on_grounded h tree _ fun htree => Tree.bytesAt_develops htree path
  | lengthAt tree path =>
    exact on_grounded h tree _ fun htree => Tree.visit_develops
      (Tree.anchors_onArray fun array => array.grows_read _) false [] path htree
  | isFullAt tree path =>
    exact on_grounded h tree _ fun htree => Tree.visit_develops
      (Tree.anchors_onArray fun array => array.grows_read _) false [] path htree
  | pushAt tree data path =>
    exact on_grounded h tree _ fun htree => Tree.pushAt_develops htree data path
  | pushEmptyAt tree path =>
    exact on_grounded h tree _ fun htree => Tree.pushAt_develops htree _ path
  | pushTreeAt tree other path =>
    refine onWith_grounded h tree other _ fun {tree source} htree => ?_
    unfold Tree.pushTreeAt
    split
    · exact .refl htree
    · exact Tree.pushAt_develops htree _ path
  | setAt tree index data path =>
    exact on_grounded h tree _ fun htree => Tree.setAt_develops htree index data path
  | setTreeAt tree index other path =>
    refine onWith_grounded h tree other _ fun {tree source} htree => ?_
    unfold Tree.setTreeAt
    split
    · exact .refl htree
    · exact Tree.setAt_develops htree index _ path
  | subtreeAt position path =>
    simp only [step]
    split
    · exact h
    · rename_i tree htree
      obtain ⟨hafter, hcopy⟩ :=
        Tree.subtreeAt_develops (h tree (List.mem_of_getElem? htree)).1 path
      split
      · rename_i heq
        rw [heq] at hafter
        exact h.set htree hafter
      · rename_i copy after heq
        rw [heq] at hafter hcopy
        obtain ⟨hanchored, hlimit⟩ := hcopy copy rfl
        exact (h.set htree hafter).append hanchored hlimit

theorem after_grounded (h : Grounded limits trees) (requests : List Request) :
    Grounded limits (after trees requests) := by
  induction requests generalizing trees with
  | nil => exact h
  | cons request rest ih => exact ih (step_grounded h request)

theorem grounded_ofArray (arrays : List LazyArray) :
    Grounded (arrays.map LazyArray.limit) (arrays.map Tree.ofArray) := by
  intro tree htree
  obtain ⟨array, harray, rfl⟩ := List.mem_map.mp htree
  exact ⟨Tree.anchored_ofArray array, .inr (List.mem_map_of_mem harray)⟩

end
end Session
end ByteFormula
