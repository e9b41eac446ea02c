import ByteFormula.Proofs.TreeBranches

/-! What a push is good for. The index that it returns leads to the data, and no other element of
the array reads differently. An index is one byte, though: in a root array with room for more than
256 elements, which only `ofArray` can make, the data of a later push is out of the reach of every
path, and the index that is returned is that of an old element. -/
namespace ByteFormula.Tree

variable {tree pushed : Tree} {data : Bytes} {index : UInt8}

/-- A push to an open array succeeds only if there is room. -/
theorem pushElement_ok {elements : Array Bytes} {cached : Option Bytes} {limit : Nat}
    (hopen : tree.array = ⟨.opened elements cached, limit⟩)
    (h : pushElement data tree = (.ok index, pushed)) :
    elements.size < limit ∧ index = UInt8.ofNat elements.size ∧
      pushed = tree.withArray ⟨.opened (elements.push data) none, limit⟩ := by
  simp only [pushElement, LazyArray.push, hopen, LazyArray.materialize] at h
  cases hlength : LengthClass.forLength data.length with
  | error e =>
    rw [hlength] at h
    cases h
  | ok width =>
    by_cases hfull : limit ≤ elements.size
    · simp only [hlength, if_pos hfull] at h
      cases h
    · simp only [hlength, if_neg hfull] at h
      cases h
      exact ⟨Nat.lt_of_not_le hfull, rfl, rfl⟩

/-- The element at an index of an open array, without a branch there. -/
theorem elementBytes_plain {elements : Array Bytes} {cached : Option Bytes} {limit : Nat}
    (hopen : tree.array = ⟨.opened elements cached, limit⟩)
    (hnone : tree.branches.get? index = none) (path : Path) :
    (elementBytes path index tree).1 =
      match elements[index.toNat]? with
      | some element => .ok element
      | none => .error (.pathNotFound path) := by
  unfold elementBytes
  simp only [hnone, hopen, LazyArray.get, LazyArray.read, LazyArray.materialize]
  cases elements[index.toNat]? <;> rfl

/-- What a push to an array changes in the answers about its elements, which are asked for by a path
and an index. -/
structure Pushed (data : Bytes) (count : Nat) (index : UInt8)
    (before after : Path → UInt8 → Except DataError Bytes) : Prop where
  index_eq : index = UInt8.ofNat count
  new : count ≤ 0xff → ∀ path, after path index = .ok data
  old : ∀ path (other : UInt8), other.toNat ≠ count → after path other = before path other

/-- A push to the array of a node. No branch stands where the new element comes, since branches
stand under elements that were there before. -/
theorem pushed_pushElement {elements : Array Bytes} {cached : Option Bytes} {limit : Nat}
    (h : tree.Anchored) (hopen : tree.array = ⟨.opened elements cached, limit⟩)
    (harray : pushed.array = ⟨.opened (elements.push data) none, limit⟩)
    (hbranches : pushed.branches = tree.branches) :
    Pushed data elements.size (UInt8.ofNat elements.size)
      (fun path i => (elementBytes path i tree).1) (fun path i => (elementBytes path i pushed).1) := by
  have hfree (i : UInt8) (hi : elements.size ≤ i.toNat) : tree.branches.get? i = none := by
    cases hget : tree.branches.get? i with
    | none => rfl
    | some child =>
      obtain ⟨⟨found, _, hform, hlt⟩, -⟩ := (anchored_iff.mp h).get? hget
      rw [hopen] at hform
      cases hform
      omega
  refine ⟨rfl, fun hcount path => ?_, fun path other hother => ?_⟩
  · have hindex : (UInt8.ofNat elements.size).toNat = elements.size := by
      rw [UInt8.toNat_ofNat']
      exact Nat.mod_eq_of_lt (by omega)
    have hnone := hfree (UInt8.ofNat elements.size) (Nat.le_of_eq hindex.symm)
    rw [← hbranches] at hnone
    simp only [elementBytes_plain harray hnone, hindex, Array.getElem?_push_size]
  · cases hget : tree.branches.get? other with
    | some child =>
      unfold elementBytes
      simp only [hbranches, hget]
    | none =>
      have hget' := hget
      rw [← hbranches] at hget'
      simp only [elementBytes_plain hopen hget, elementBytes_plain harray hget',
        Array.getElem?_push, if_neg hother]

section

variable {α : Type} {act : Action α} {writes : Bool} {trail rest : Path} {step : UInt8}

@[simp] theorem settle_fst (result : Except DataError α) (tree : Tree) :
    (settle writes result tree).1 = result := by
  cases result <;> rfl

private theorem settle_write_eq_ok {result : Except DataError α} {value : α} {after : Tree}
    (h : settle true result tree = (.ok value, after)) : result = .ok value ∧ after = tree.touch := by
  cases result with
  | error e => cases h
  | ok found =>
    cases h
    exact ⟨rfl, rfl⟩

private theorem visit_nil_fst {array : LazyArray} (h : tree.array.materialize = .ok array) :
    (visit writes act trail [] tree).1 = (act (tree.withArray array)).1 := by
  rw [visit]
  simp only [h, settle_fst]

/-- A visit goes on in the branch that is kept. -/
theorem visit_branch_fst {child : Tree} (h : tree.branches.get? step = some child) :
    (visit writes act trail (step :: rest) tree).1 =
      (visit writes act (trail.child step) rest child).1 := by
  rw [visit]
  simp only [h, settle_fst]

/-- Without a branch, a visit goes on in the element read as an array. -/
theorem visit_element_fst {element : Bytes} {array own : LazyArray}
    (hnone : tree.branches.get? step = none) (hget : tree.array.get step.toNat = (.ok element, array))
    (hopen : (LazyArray.ofBytes element maxElements).materialize = .ok own) :
    (visit writes act trail (step :: rest) tree).1 =
      (visit writes act (trail.child step) rest (ofArray own)).1 := by
  rw [visit]
  simp only [hnone, hget, hopen, settle_fst]

/-- A write that succeeds has gone on in some node, whose answers are those of the visits along the
same path, and leaves the changed node as a branch. -/
theorem visit_write_step {value : α} {after : Tree} (h : tree.Anchored)
    (hrun : visit true act trail (step :: rest) tree = (.ok value, after)) :
    ∃ child changed, child.Anchored ∧ child.array.limit = maxElements ∧
      visit true act (trail.child step) rest child = (.ok value, changed) ∧
      after.branches.get? step = some changed ∧
      ∀ {β : Type} (other : Action β), (visit false other trail (step :: rest) tree).1 =
        (visit false other (trail.child step) rest child).1 := by
  rw [visit] at hrun
  split at hrun
  · rename_i child hget
    obtain ⟨-, hlimit, hchild⟩ := (anchored_iff.mp h).get? hget
    obtain ⟨hvalue, rfl⟩ := settle_write_eq_ok hrun
    refine ⟨child, _, hchild, hlimit, Prod.ext hvalue rfl, ?_, fun other => visit_branch_fst hget⟩
    exact (Branches.get?_put _ _ _ _).trans (if_pos rfl)
  · rename_i hnone
    split at hrun
    · cases hrun
    · cases hrun
    · rename_i element array hget
      split at hrun
      · cases hrun
      · rename_i own hopen
        obtain ⟨hvalue, rfl⟩ := settle_write_eq_ok hrun
        refine ⟨ofArray own, _, anchored_ofArray own, (LazyArray.grows_materialize hopen).1.limit,
          Prod.ext hvalue rfl, ?_, fun other => visit_element_fst hnone hget hopen⟩
        exact (Branches.get?_put _ _ _ _).trans (if_pos rfl)

end

/-- A push along a path: the answers below the array that it leads to. -/
theorem visit_push (h : tree.Anchored) {trail path : Path}
    (hpush : visit true (pushElement data) trail path tree = (.ok index, pushed)) :
    ∃ count, (visit false (onArray LazyArray.length) trail path tree).1 = .ok count ∧
      count < (if path = [] then tree.array.limit else maxElements) ∧
      Pushed data count index (fun full i => (visit false (elementBytes full i) trail path tree).1)
        (fun full i => (visit false (elementBytes full i) trail path pushed).1) := by
  induction path generalizing trail tree pushed with
  | nil =>
    rw [visit] at hpush
    split at hpush
    · cases hpush
    rename_i array hopen
    obtain ⟨hgrows, elements, cached, hform⟩ := LazyArray.grows_materialize hopen
    obtain ⟨form, limit⟩ := array
    cases hform
    generalize hrun : pushElement data _ = outcome at hpush
    obtain ⟨result, after⟩ := outcome
    obtain ⟨rfl, rfl⟩ := settle_write_eq_ok hpush
    obtain ⟨hroom, rfl, rfl⟩ := pushElement_ok rfl hrun
    have hreopen : (((tree.withArray ⟨.opened elements cached, limit⟩).withArray
        ⟨.opened (elements.push data) none, limit⟩).touch).array.materialize =
          .ok ⟨.opened (elements.push data) none, limit⟩ := rfl
    refine ⟨elements.size, visit_nil_fst hopen, ?_, ?_⟩
    · rw [if_pos rfl, ← hgrows.limit]
      exact hroom
    · simp only [visit_nil_fst hopen, visit_nil_fst hreopen]
      exact pushed_pushElement (h.withArray hgrows).anchored rfl rfl rfl
  | cons step rest ih =>
    obtain ⟨child, changed, hchild, hlimit, hrun, hget, hsame⟩ := visit_write_step h hpush
    obtain ⟨count, hcount, hroom, hpushed⟩ := ih hchild hrun
    refine ⟨count, (hsame _).trans hcount, ?_, ?_⟩
    · rw [if_neg (List.cons_ne_nil _ _)]
      split at hroom
      · exact hlimit ▸ hroom
      · exact hroom
    · simpa only [hsame, visit_branch_fst hget] using hpushed

theorem bytesAt_child (tree : Tree) (path : Path) (i : UInt8) :
    tree.bytesAt (path.child i) = visit false (elementBytes (path.child i) i) [] path tree := by
  simp only [bytesAt, Path.child, List.getLast?_concat, List.dropLast_concat]

end ByteFormula.Tree

namespace ByteFormula.Session

/-- In every session, with trees over any arrays and whatever was asked of them: the index that a push
returns leads to its data, and the other elements of the array read as before. This fails only for a
root array that has 256 elements already. It then returns the low byte of the index, and no element
reads differently at all. Trees made without an array of their own, arrays below a root, and roots
with room for 256 elements never come to this. -/
theorem push_returns_usable_index (arrays : List LazyArray) (requests : List Request) {tree : Tree}
    (htree : tree ∈ after (arrays.map Tree.ofArray) requests) {data : Bytes} {path : Path}
    {index : UInt8} {pushed : Tree} (hpush : tree.pushAt data path = (.ok index, pushed)) :
    ∃ count, (tree.lengthAt path).1 = .ok count ∧ index = UInt8.ofNat count ∧
      (count ≤ 0xff → (pushed.bytesAt (path.child index)).1 = .ok data ∧
        ∀ other, other ≠ index →
          (pushed.bytesAt (path.child other)).1 = (tree.bytesAt (path.child other)).1) ∧
      (0xff < count → ∀ other,
        (pushed.bytesAt (path.child other)).1 = (tree.bytesAt (path.child other)).1) ∧
      ((path ≠ [] ∨ ∀ array ∈ arrays, array.limit ≤ 0x100) → count ≤ 0xff) := by
  obtain ⟨hanchored, hlimit⟩ := after_grounded (grounded_ofArray arrays) requests tree htree
  obtain ⟨count, hcount, hroom, hpushed⟩ := Tree.visit_push hanchored hpush
  have hold (other : UInt8) (hother : other.toNat ≠ count) :
      (pushed.bytesAt (path.child other)).1 = (tree.bytesAt (path.child other)).1 := by
    rw [Tree.bytesAt_child, Tree.bytesAt_child]
    exact hpushed.old _ other hother
  refine ⟨count, hcount, hpushed.index_eq, fun hsmall => ⟨?_, fun other hother => ?_⟩, ?_, ?_⟩
  · rw [Tree.bytesAt_child]
    exact hpushed.new hsmall _
  · refine hold other fun heq => hother ?_
    rw [hpushed.index_eq, ← heq, UInt8.ofNat_toNat]
  · intro hlarge other
    have := other.toNat_lt
    exact hold other (by omega)
  · rintro (hpath | hlimits)
    · rw [if_neg hpath] at hroom
      exact Nat.le_of_lt hroom
    · have hmost : tree.array.limit ≤ 0x100 := by
        rcases hlimit with heq | hmem
        · rw [heq]
          decide
        · obtain ⟨array, harray, heq⟩ := List.mem_map.mp hmem
          exact heq ▸ hlimits array harray
      split at hroom
      · omega
      · exact Nat.le_of_lt hroom

/-- An array of 255 empty elements with room for one more than an index can tell apart. -/
def nearlyFull : LazyArray :=
  .ofBytes [0x00, 0xff] 0x101

/-- The data at the last index there is. -/
theorem push_returns_usable_index_last :
    ∃ tree ∈ after ([nearlyFull].map Tree.ofArray) [.bytesAt 0 [3]], ∃ pushed,
      tree.pushAt [7] [] = (.ok 0xff, pushed) ∧ (pushed.bytesAt [0xff]).1 = .ok [7] ∧
      (pushed.bytesAt [0]).1 = (tree.bytesAt [0]).1 := by
  have hanswers : (after ([nearlyFull].map Tree.ofArray) [.bytesAt 0 [3]]).map (fun tree =>
      (Answer.ofResult .count (tree.lengthAt []).1,
        Answer.ofResult .index (tree.pushAt [7] []).1)) = [(.count 0xff, .index 0xff)] := by
    decide +kernel
  obtain ⟨tree, htree, hpair⟩ := List.map_eq_singleton_iff.mp hanswers
  obtain ⟨hlength, hindex⟩ := Prod.mk.inj hpair
  have hmem : tree ∈ after ([nearlyFull].map Tree.ofArray) [.bytesAt 0 [3]] := by
    rw [htree]
    exact List.mem_singleton_self tree
  cases hpush : tree.pushAt [7] [] with
  | mk result pushed =>
    rw [hpush] at hindex
    cases result with
    | error e => cases hindex
    | ok index =>
      cases hindex
      obtain ⟨count, hcount, -, hread, -⟩ := push_returns_usable_index _ _ hmem hpush
      rw [hcount] at hlength
      cases hlength
      obtain ⟨hnew, hold⟩ := hread (Nat.le_refl _)
      exact ⟨tree, hmem, pushed, hpush, hnew, hold 0 (by decide)⟩

def crowded : LazyArray :=
  .ofBytes [0x01, 0x00] 1000

/-- The index of the 257th element has the low byte 0, which leads to the first one. -/
theorem push_beyond_index :
    run [Tree.ofArray crowded] [.pushAt 0 [7] [], .bytesAt 0 [0]] = [.index 0, .bytes []] ∧
    ¬ ∀ (arrays : List LazyArray) (requests : List Request) (tree pushed : Tree) (data : Bytes)
      (path : Path) (index : UInt8), tree ∈ after (arrays.map Tree.ofArray) requests →
        tree.pushAt data path = (.ok index, pushed) →
        (pushed.bytesAt (path.child index)).1 = .ok data := by
  have hindex : Answer.ofResult .index ((Tree.ofArray crowded).pushAt [7] []).1 = .index 0 := by
    decide +kernel
  have hbytes : Answer.ofResult .bytes
      ((((Tree.ofArray crowded).pushAt [7] []).2).bytesAt (Path.child [] 0)).1 = .bytes [] := by
    decide +kernel
  refine ⟨by decide +kernel, fun hclaim => ?_⟩
  cases hpush : (Tree.ofArray crowded).pushAt [7] [] with
  | mk result pushed =>
    rw [hpush] at hindex hbytes
    cases result with
    | error e => cases hindex
    | ok index =>
      cases hindex
      have hread := hclaim [crowded] [] _ pushed [7] [] 0 List.mem_cons_self hpush
      rw [hread] at hbytes
      cases hbytes

end ByteFormula.Session
