import ByteFormula.Proofs.TreeContents

/-! Visits to the arrays of a tree. A visit finds the array that its path leads to in the contents
of the tree. A visit that reads leaves the contents alone, and one that writes changes them as the
same write changes the plain byte string. -/
namespace ByteFormula

def DataError.isFull : DataError → Bool
  | .tooManyElements _ => true
  | _ => false

theorem DataError.isFull_of_isLimit {e : DataError} (h : e.isLimit = false) : e.isFull = false := by
  cases e <;> first | rfl | cases h

namespace Tree

variable {loose : Bool}

@[simp] theorem withArray_array (tree : Tree) : tree.withArray tree.array = tree := by
  cases tree
  rfl

/-- The array of a node is open, and these are the elements that the node amounts to. -/
structure Open (loose : Bool) (tree : Tree) (raw : Bytes) (now : List Bytes) : Prop where
  standsFor : tree.StandsFor loose raw
  isOpened : tree.array.isOpened = true
  unpack : Packing.unpack maxElements raw = .ok now

theorem StandsFor.materialize {tree : Tree} {raw : Bytes} {now : List Bytes}
    (h : tree.StandsFor loose raw) (hraw : Packing.unpack maxElements raw = .ok now) :
    ∃ array, tree.array.materialize = .ok array ∧ Open loose (tree.withArray array) raw now := by
  cases h with
  | packed =>
    refine ⟨_, ?_, standsFor_ofArray hraw, rfl, hraw⟩
    simp only [array, LazyArray.materialize, hraw]
  | opened hraw' hsize hsorted hinside hbranch hplain hclean hdirty hpending =>
    exact ⟨_, rfl, .opened hraw' hsize hsorted hinside hbranch hplain hclean hdirty hpending, rfl,
      hraw⟩

/-- Opening fails only on bytes that nobody has unpacked, and there is nothing below these. -/
theorem StandsFor.materialize_error {tree : Tree} {raw : Bytes} {e : DataError}
    (h : tree.StandsFor loose raw) (hraw : Packing.unpack maxElements raw = .error e) :
    tree.array.materialize = .error e ∧ tree.branches = .none := by
  cases h with
  | packed => exact ⟨by simp only [array, LazyArray.materialize, hraw], rfl⟩
  | opened hraw' => cases hraw.symm.trans hraw'

private theorem get_of_materialize {array after : LazyArray} {elements : Array Bytes}
    {cached : Option Bytes} (h : array.materialize = .ok after)
    (hform : after.form = .opened elements cached) (index : Nat) :
    array.get index = (match elements[index]? with
      | some element => .ok element
      | none => .error (.indexOutOfBounds index elements.size), after) := by
  cases hget : elements[index]? <;> simp only [LazyArray.get, LazyArray.read, h, hform, hget]

theorem Open.get {tree : Tree} {raw : Bytes} {now : List Bytes} {index : UInt8}
    {array : LazyArray} (h : Open loose (tree.withArray array) raw now)
    (harray : tree.array.materialize = .ok array) (hnone : tree.branches.get? index = none) :
    tree.array.get index.toNat = (match now[index.toNat]? with
      | some element => .ok element
      | none => .error (.indexOutOfBounds index.toNat now.length), array) := by
  obtain ⟨hrep, hopen, hunpack⟩ := h
  obtain ⟨own, branches, dirty, unwritten⟩ := tree
  cases hrep with
  | packed => cases hopen
  | @opened elements cached _ _ _ _ now' hraw hsize hsorted hinside hbranch hplain hclean hdirty =>
    cases hunpack.symm.trans hraw
    have hwritten : branches.pending index = false := by
      simp only [Branches.pending, show branches.get? index = none from hnone]
    rw [get_of_materialize harray rfl, hplain index hwritten, hsize]

theorem Open.branch {tree : Tree} {raw : Bytes} {now : List Bytes} {index : UInt8} {child : Tree}
    (h : Open loose tree raw now) (hchild : tree.branches.get? index = some child) :
    ∃ own, now[index.toNat]? = some own ∧ child.StandsFor loose own := by
  obtain ⟨hrep, hopen, hunpack⟩ := h
  cases hrep with
  | packed => cases hopen
  | opened hraw hsize hsorted hinside hbranch =>
    cases hunpack.symm.trans hraw
    have hsome := List.getElem?_eq_getElem (hinside index child hchild)
    exact ⟨_, hsome, hbranch index child _ hchild hsome⟩

private theorem StandsFor.open_of_branch {tree : Tree} {raw : Bytes} {index : UInt8} {child : Tree}
    (h : tree.StandsFor loose raw) (hchild : tree.branches.get? index = some child) :
    ∃ now, Open loose tree raw now := by
  cases h with
  | packed => cases hchild
  | opened hraw hsize hsorted hinside hbranch hplain hclean hdirty hpending =>
    exact ⟨_, .opened hraw hsize hsorted hinside hbranch hplain hclean hdirty hpending, rfl, hraw⟩

/-- A branch that stands for its element may be put under its index. -/
theorem Open.put {tree : Tree} {raw : Bytes} {now : List Bytes} {index : UInt8} {child : Tree}
    {own : Bytes} (h : Open loose tree raw now) (hown : now[index.toNat]? = some own)
    (hchild : child.StandsFor loose own) (hmark : child.unwritten = tree.branches.pending index) :
    (tree.withBranches (tree.branches.put index child)).StandsFor loose raw := by
  obtain ⟨hrep, hopen, hunpack⟩ := h
  cases hrep with
  | packed => cases hopen
  | @opened elements cached branches dirty unwritten _ now' hraw hsize hsorted hinside hbranch
      hplain hclean hdirty hpack =>
    cases hunpack.symm.trans hraw
    -- What is pending stays so, and all clauses but two speak of the branches only through that.
    have hpending (i : UInt8) : (branches.put index child).pending i = branches.pending i := by
      rw [Branches.pending_put]
      split
      · subst_vars
        exact hmark
      · rfl
    change StandsFor loose (.node ⟨.opened elements cached, maxElements⟩
      (branches.put index child) dirty unwritten) raw
    refine .opened hraw hsize (hsorted.put index child) ?_ ?_ ?_ ?_ ?_ hpack
    · intro i other hother
      rw [Branches.get?_put] at hother
      split at hother
      · subst_vars
        exact (List.getElem?_eq_some_iff.mp hown).1
      · exact hinside i other hother
    · intro i other bytes hother hbytes
      rw [Branches.get?_put] at hother
      split at hother
      · cases hother
        subst_vars
        cases hown.symm.trans hbytes
        exact hchild
      · exact hbranch i other bytes hother hbytes
    · intro i hi
      exact hplain i (hpending i ▸ hi)
    · intro hflag
      simpa only [hpending] using hclean hflag
    · intro hflag
      simpa only [hpending] using hdirty hflag

/-- A changed branch makes its parent amount to the changed elements. -/
theorem Open.put_changed {tree : Tree} {raw changed : Bytes} {now : List Bytes} {index : UInt8}
    {child : Tree} {own packed : Bytes} (h : Open loose tree raw now)
    (hown : now[index.toNat]? = some own)
    (hchild : child.StandsFor loose changed) (hmark : child.unwritten = true)
    (hpack : Packing.pack (now.set index.toNat changed) = .ok packed) :
    (tree.withBranches (tree.branches.put index child)).touch.StandsFor loose packed := by
  obtain ⟨hrep, hopen, hunpack⟩ := h
  cases hrep with
  | packed => cases hopen
  | @opened elements cached branches dirty unwritten _ now' hraw hsize hsorted hinside hbranch
      hplain hclean hdirty =>
    cases hunpack.symm.trans hraw
    have hlength : now.length ≤ maxElements := Packing.length_unpack hraw
    have hindex := (List.getElem?_eq_some_iff.mp hown).1
    have hother {i : UInt8} (hne : index ≠ i) : (now.set index.toNat changed)[i.toNat]? =
        now[i.toNat]? := List.getElem?_set_ne fun heq => hne (UInt8.toNat_inj.mp heq)
    change StandsFor loose (.node ⟨.opened elements cached, maxElements⟩
      (branches.put index child) true true) packed
    refine .opened (Packing.unpack_pack hpack (by rwa [List.length_set]))
      (by rw [hsize, List.length_set]) (hsorted.put index child) ?_ ?_ ?_ nofun ?_
      fun _ => hpack
    · intro i other hget
      rw [List.length_set]
      rw [Branches.get?_put] at hget
      split at hget
      · subst_vars
        exact hindex
      · exact hinside i other hget
    · intro i other bytes hget hbytes
      rw [Branches.get?_put] at hget
      split at hget
      · cases hget
        subst_vars
        rw [List.getElem?_set_self hindex] at hbytes
        cases hbytes
        exact hchild
      · exact hbranch i other bytes hget (hother ‹_› ▸ hbytes)
    · intro i hi
      rw [Branches.pending_put] at hi
      split at hi
      · rw [hmark] at hi
        cases hi
      · rw [hother ‹_›]
        exact hplain i hi
    -- The parent's own elements are older now, which the pending branch accounts for.
    · exact fun _ => ⟨rfl, .inr ⟨index, by simp [Branches.pending_put, hmark]⟩⟩

/-- A branch that cannot be written back makes the same of its parent. -/
theorem Open.put_overlong {tree : Tree} {raw : Bytes} {now : List Bytes} {index : UInt8}
    {child : Tree} (h : Open loose tree raw now) (hmark : child.unwritten = true)
    (hchild : child.Overlong ∨ ∃ own, child.StandsFor loose own ∧ Bytes.capacity 4 ≤ own.length) :
    (tree.withBranches (tree.branches.put index child)).touch.Overlong := by
  obtain ⟨hrep, hopen, hunpack⟩ := h
  cases hrep with
  | packed => cases hopen
  | @opened elements cached branches dirty unwritten _ now' hraw hsize hsorted hinside hbranch =>
    have hput : (branches.put index child).get? index = some child := by simp [Branches.get?_put]
    have hothers (i : UInt8) (other : Tree) (hne : i ≠ index)
        (hother : (branches.put index child).get? i = some other) :
        ∃ own, now'[i.toNat]? = some own ∧ other.StandsFor loose own := by
      rw [Branches.get?_put, if_neg (Ne.symm hne)] at hother
      have hown := List.getElem?_eq_getElem (hinside i other hother)
      exact ⟨_, hown, hbranch i other _ hother hown⟩
    obtain ⟨length, hrun⟩ := Branches.writeBack_overlong maxElements
      (fun _ => Packing.length_lt_of_unpack hraw) hmark hchild (branches.put index child) elements
      cached (hsorted.put index child) hsize hput hothers
    refine ⟨length, ?_⟩
    rcases hfailed : (branches.put index child).writeBack ⟨.opened elements cached, maxElements⟩
      with ⟨result, filled, after⟩
    rw [hfailed] at hrun
    cases hrun
    simp only [touch, withBranches, array, Tree.branches, sync, hfailed, reduceIte]

/-- How a visit with a path takes its first step, whatever it is going to do. The first three
ends are the errors of the path; in the last the visit goes on in a branch. -/
inductive FirstStep (loose : Bool) (tree : Tree) (raw : Bytes) (trail : Path) (index : UInt8)
    (rest : Path) : Prop where
  | unreadable {e : DataError} (hraw : Packing.unpack maxElements raw = .error e)
      (hvisit : ∀ {α : Type} (writes : Bool) (act : Action α),
        visit writes act trail (index :: rest) tree = (.error (.notAnArray trail), tree))
  | missing {now : List Bytes} {after : Tree} (hopen : Open loose after raw now)
      (hmark : after.unwritten = tree.unwritten) (hnone : now[index.toNat]? = none)
      (hvisit : ∀ {α : Type} (writes : Bool) (act : Action α),
        visit writes act trail (index :: rest) tree =
          (.error (.pathNotFound (trail.child index)), after))
  | leaf {now : List Bytes} {own : Bytes} {after : Tree} {e : DataError}
      (hopen : Open loose after raw now) (hmark : after.unwritten = tree.unwritten)
      (hown : now[index.toNat]? = some own)
      (hleaf : Packing.unpack maxElements own = .error e)
      (hvisit : ∀ {α : Type} (writes : Bool) (act : Action α),
        visit writes act trail (index :: rest) tree =
          (.error (.notAnArray (trail.child index)), after))
  | descend {now : List Bytes} {own : Bytes} {after child : Tree} (hopen : Open loose after raw now)
      (hmark : after.unwritten = tree.unwritten) (hown : now[index.toNat]? = some own)
      (hchild : child.StandsFor loose own)
      (hpending : child.unwritten = after.branches.pending index)
      (hvisit : ∀ {α : Type} (writes : Bool) (act : Action α),
        visit writes act trail (index :: rest) tree =
          match visit writes act (trail.child index) rest child with
          | (result, child) =>
            settle writes result (after.withBranches (after.branches.put index child)))

private theorem StandsFor.firstStep {tree : Tree} {raw : Bytes} (h : tree.StandsFor loose raw)
    (trail : Path) (index : UInt8) (rest : Path) : FirstStep loose tree raw trail index rest := by
  cases hbranch : tree.branches.get? index with
  | some child =>
    obtain ⟨now, hopen⟩ := h.open_of_branch hbranch
    obtain ⟨own, hown, hchild⟩ := hopen.branch hbranch
    refine .descend hopen rfl hown hchild (by simp only [Branches.pending, hbranch]) ?_
    intro α writes act
    simp only [visit, hbranch]
  | none =>
    cases hraw : Packing.unpack maxElements raw with
    | error e =>
      obtain ⟨harray, -⟩ := h.materialize_error hraw
      refine .unreadable hraw fun writes act => ?_
      have hget : tree.array.get index.toNat = (.error e, tree.array) := by
        simp only [LazyArray.get, LazyArray.read, harray]
      simp only [visit, hbranch, hget]
      rcases Packing.unpack_error hraw with ⟨_, _, rfl⟩ | rfl | ⟨_, rfl⟩ <;> simp
    | ok now =>
      obtain ⟨array, harray, hopen⟩ := h.materialize hraw
      have hget := hopen.get harray hbranch
      cases hown : now[index.toNat]? with
      | none =>
        rw [hown] at hget
        refine .missing hopen rfl hown fun writes act => ?_
        simp only [visit, hbranch, hget]
      | some own =>
        rw [hown] at hget
        cases hunpack : Packing.unpack maxElements own with
        | error e =>
          refine .leaf hopen rfl hown hunpack fun writes act => ?_
          have hfail := (standsFor_ofBytes own : StandsFor loose _ _).materialize_error hunpack
          simp only [visit, hbranch, hget]
          rw [show (LazyArray.ofBytes own maxElements).materialize = .error e from hfail.1]
        | ok inner =>
          refine .descend hopen rfl hown (standsFor_ofArray hunpack) ?_ fun writes act => ?_
          · simp only [Branches.pending, show (tree.withArray array).branches.get? index = none from
              hbranch]
            rfl
          · have hfresh : (LazyArray.ofBytes own maxElements).materialize =
                .ok ⟨.opened inner.toArray (some own), maxElements⟩ := by
              simp only [LazyArray.materialize, LazyArray.ofBytes]
              rw [show min maxElements Packing.maxElements = maxElements from rfl, hunpack]
            simp only [visit, hbranch, hget, hfresh]
            rfl

def Answers {α : Type} (similar : α → α → Prop) : Except DataError α → Except DataError α → Prop
  | .ok value, .ok other => similar value other
  | .error e, .error other => other = e
  | _, _ => False

section

variable {α : Type} {similar : α → α → Prop} {answer result : Except DataError α}

theorem answers_refl (h : ∀ value, similar value value) (answer : Except DataError α) :
    Answers similar answer answer := by
  cases answer with
  | error e => rfl
  | ok value => exact h value

theorem answers_eq : Answers (fun value other => other = value) answer result ↔ result = answer := by
  cases answer <;> cases result <;> simp [Answers]

theorem Answers.of_ok {value : α} (h : Answers similar (.ok value) result) :
    ∃ other, result = .ok other ∧ similar value other := by
  cases result with
  | error e => cases h
  | ok other => exact ⟨other, rfl, h⟩

theorem Answers.to_ok {other : α} (h : Answers similar answer (.ok other)) :
    ∃ value, answer = .ok value ∧ similar value other := by
  cases answer with
  | error e => cases h
  | ok value => exact ⟨value, rfl, h⟩

theorem Answers.of_error {e : DataError} (h : Answers similar (.error e) result) :
    result = .error e := by
  cases result with
  | error other => exact congrArg Except.error h
  | ok value => cases h

end

/-- An action reads what `ask` says about the elements of its node, up to values that are `similar`,
and leaves the contents. -/
def ReadsAs {α : Type} (loose : Bool) (similar : α → α → Prop) (act : Action α)
    (ask : List Bytes → Except DataError α) : Prop :=
  ∀ ⦃tree : Tree⦄ ⦃raw : Bytes⦄ ⦃now : List Bytes⦄, Open loose tree raw now →
    ∃ result after, act tree = (result, after) ∧ Answers similar (ask now) result ∧
      after.StandsFor loose raw ∧ after.unwritten = tree.unwritten

/-- An action changes the elements of its node as `change` says, to elements that can be packed.
When that fails it leaves the contents, but with a full array these may be packed anew. -/
def WritesAs {α : Type} (loose : Bool) (act : Action α)
    (change : List Bytes → Except DataError (α × List Bytes)) : Prop :=
  ∀ ⦃tree : Tree⦄ ⦃raw : Bytes⦄ ⦃now : List Bytes⦄, Open loose tree raw now →
    (∀ e, change now = .error e →
      ∃ after, act tree = (.error e, after) ∧ (loose = true ∨ e.isFull = false →
        after.StandsFor loose raw ∧ after.unwritten = tree.unwritten)) ∧
    ∀ answer changed, change now = .ok (answer, changed) →
      ∃ packed after, Packing.pack changed = .ok packed ∧ act tree = (.ok answer, after) ∧
        after.touch.StandsFor loose packed

/-- A visit that reads gives the answer of the plain byte string and leaves the contents. -/
theorem StandsFor.visit_read {α : Type} {similar : α → α → Prop} {act : Action α}
    {ask : List Bytes → Except DataError α} (hact : ReadsAs loose similar act ask)
    (trail path : Path) {tree : Tree} {raw : Bytes} (h : tree.StandsFor loose raw) :
    ∃ result after, visit false act trail path tree = (result, after) ∧
      Answers similar (PlainTree.read ask trail path raw) result ∧ after.StandsFor loose raw ∧
      after.unwritten = tree.unwritten := by
  have hsettle (result : Except DataError α) (after : Tree) :
      settle false result after = (result, after) := by
    cases result <;> rfl
  induction path generalizing trail tree raw with
  | nil =>
    cases hraw : Packing.unpack maxElements raw with
    | error e =>
      refine ⟨.error (.notAnArray trail), tree, ?_, ?_, h, rfl⟩
      · simp only [visit, (h.materialize_error hraw).1]
      · simp only [PlainTree.read, PlainTree.elements, hraw]
        rfl
    | ok now =>
      obtain ⟨array, harray, hopen⟩ := h.materialize hraw
      obtain ⟨result, after, hrun, hanswers, hafter, hmark⟩ := hact hopen
      refine ⟨result, after, ?_, ?_, hafter, hmark⟩
      · simp only [visit, harray, hrun, hsettle]
      · simpa only [PlainTree.read, PlainTree.elements, hraw] using hanswers
  | cons index rest ih =>
    cases h.firstStep trail index rest with
    | unreadable hraw hvisit =>
      refine ⟨_, tree, hvisit false act, ?_, h, rfl⟩
      simp only [PlainTree.read, PlainTree.elements, hraw]
      rfl
    | missing hopen hmark hnone hvisit =>
      refine ⟨_, _, hvisit false act, ?_, hopen.standsFor, hmark⟩
      simp only [PlainTree.read, PlainTree.elements, PlainTree.element, hopen.unpack, hnone]
      rfl
    | leaf hopen hmark hown hleaf hvisit =>
      refine ⟨_, _, hvisit false act, ?_, hopen.standsFor, hmark⟩
      simp only [PlainTree.read, PlainTree.elements, PlainTree.element, hopen.unpack, hown]
      cases rest <;> simp only [PlainTree.read, PlainTree.elements, hleaf] <;> rfl
    | @descend now own after child hopen hmark hown hchild hpending hvisit =>
      obtain ⟨result, child', hrun, hanswers, hchild', hmark'⟩ := ih (trail.child index) hchild
      refine ⟨result, _, ?_, ?_, hopen.put hown hchild' (hmark'.trans hpending), hmark⟩
      · simp only [hvisit, hrun, hsettle]
      · simpa only [PlainTree.read, PlainTree.elements, PlainTree.element, hopen.unpack, hown] using
          hanswers

/-- A write ended like the plain one: with its answer and what the byte string became, or with its
error and the contents as they were. The exception is a byte string too long to be packed: then the
tree was changed all the same, and it will be found out later. -/
def Mirrors {α : Type} (loose : Bool) (raw : Bytes) (mark : Bool) :
    Except DataError (α × Bytes) → Except DataError α × Tree → Prop
  | .error e, (result, after) =>
      result = .error e ∧ (loose = true ∨ e.isFull = false →
        after.StandsFor loose raw ∧ after.unwritten = mark) ∨
      e.isLimit = true ∧ (∃ answer, result = .ok answer) ∧ after.Overlong ∧ after.unwritten = true
  | .ok (answer, packed), (result, after) =>
      result = .ok answer ∧ after.StandsFor loose packed ∧ after.unwritten = true

private theorem pack_error {elements : List Bytes} {e : DataError}
    (h : Packing.pack elements = .error e) : e.isLimit = true := by
  unfold Packing.pack at h
  split at h
  · cases h
    rfl
  split at h
  · rename_i hclass
    cases h
    rw [LengthClass.forLength_error hclass]
    rfl
  · cases h

/-- Elements that were unpacked can be packed again, also with a new one among them. -/
theorem exists_pack {raw data : Bytes} {now elements : List Bytes}
    (hraw : Packing.unpack maxElements raw = .ok now) (hdata : data.length < Bytes.capacity 4)
    (hlength : elements.length ≤ maxElements)
    (hmem : ∀ element ∈ elements, element ∈ now ∨ element = data) :
    ∃ packed, Packing.pack elements = .ok packed := by
  refine (Packing.pack_ok_iff _).mpr ⟨Nat.le_trans hlength (by decide), fun element helement => ?_⟩
  rcases hmem element helement with hold | rfl
  · exact Packing.length_lt_of_unpack hraw hold
  · exact hdata

/-- Only the new element can keep a changed array from being packed. -/
private theorem capacity_le_of_pack_error {raw changed : Bytes} {now : List Bytes} {index : Nat}
    {e : DataError} (hraw : Packing.unpack maxElements raw = .ok now)
    (h : Packing.pack (now.set index changed) = .error e) : Bytes.capacity 4 ≤ changed.length := by
  apply Nat.le_of_not_lt
  intro hshort
  obtain ⟨packed, hpack⟩ : ∃ packed, Packing.pack (now.set index changed) = .ok packed :=
    exists_pack hraw hshort (by rw [List.length_set]; exact Packing.length_unpack hraw)
      fun _ => List.mem_or_eq_of_mem_set
  cases h.symm.trans hpack

/-- A visit that writes answers as the plain byte string does, and changes the contents to what
that becomes. -/
theorem StandsFor.visit_write {α : Type} {act : Action α}
    {change : List Bytes → Except DataError (α × List Bytes)} (hact : WritesAs loose act change)
    (trail path : Path) {tree : Tree} {raw : Bytes} (h : tree.StandsFor loose raw) :
    Mirrors loose raw tree.unwritten (PlainTree.write change trail path raw)
      (visit true act trail path tree) := by
  induction path generalizing trail tree raw with
  | nil =>
    cases hraw : Packing.unpack maxElements raw with
    | error e =>
      simp only [visit, (h.materialize_error hraw).1, PlainTree.write, PlainTree.elements, hraw]
      exact .inl ⟨rfl, fun _ => ⟨h, rfl⟩⟩
    | ok now =>
      obtain ⟨array, harray, hopen⟩ := h.materialize hraw
      obtain ⟨hfail, hdone⟩ := hact hopen
      simp only [visit, harray, PlainTree.write, PlainTree.elements, hraw]
      cases hchange : change now with
      | error e =>
        obtain ⟨after, hrun, hafter⟩ := hfail e hchange
        rw [hrun]
        exact .inl ⟨rfl, hafter⟩
      | ok changed =>
        obtain ⟨answer, changed⟩ := changed
        obtain ⟨packed, after, hpack, hrun, hafter⟩ := hdone answer changed hchange
        simp only [hpack, hrun]
        exact ⟨rfl, hafter, rfl⟩
  | cons index rest ih =>
    cases h.firstStep trail index rest with
    | unreadable hraw hvisit =>
      simp only [hvisit, PlainTree.write, PlainTree.elements, hraw]
      exact .inl ⟨rfl, fun _ => ⟨h, rfl⟩⟩
    | missing hopen hmark hnone hvisit =>
      simp only [hvisit, PlainTree.write, PlainTree.elements, PlainTree.element, hopen.unpack, hnone]
      exact .inl ⟨rfl, fun _ => ⟨hopen.standsFor, hmark⟩⟩
    | leaf hopen hmark hown hleaf hvisit =>
      simp only [hvisit, PlainTree.write, PlainTree.elements, PlainTree.element, hopen.unpack, hown]
      cases rest <;> simp only [PlainTree.write, PlainTree.elements, hleaf] <;>
        exact .inl ⟨rfl, fun _ => ⟨hopen.standsFor, hmark⟩⟩
    | @descend now own after child hopen hmark hown hchild hpending hvisit =>
      have hbelow := ih (trail.child index) hchild
      simp only [hvisit, PlainTree.write, PlainTree.elements, PlainTree.element, hopen.unpack, hown]
      generalize visit true act (trail.child index) rest child = run at hbelow ⊢
      obtain ⟨result, child'⟩ := run
      cases hwrite : PlainTree.write change (trail.child index) rest own with
      | error e =>
        rw [hwrite] at hbelow
        rcases hbelow with ⟨rfl, hkept⟩ | ⟨hlimit, ⟨answer, rfl⟩, hlong, hmark'⟩
        · refine .inl ⟨rfl, fun hfull => ?_⟩
          obtain ⟨hchild', hmark'⟩ := hkept hfull
          exact ⟨hopen.put hown hchild' (hmark'.trans hpending), hmark⟩
        · exact .inr ⟨hlimit, ⟨answer, rfl⟩, hopen.put_overlong hmark' (.inl hlong), rfl⟩
      | ok changed =>
        obtain ⟨answer, changed⟩ := changed
        rw [hwrite] at hbelow
        obtain ⟨rfl, hchild', hmark'⟩ := hbelow
        cases hpack : Packing.pack (now.set index.toNat changed) with
        | error e =>
          have hlong := capacity_le_of_pack_error hopen.unpack hpack
          simp only [hpack]
          exact .inr ⟨pack_error hpack, ⟨answer, rfl⟩,
            hopen.put_overlong hmark' (.inr ⟨changed, hchild', hlong⟩), rfl⟩
        | ok packed =>
          simp only [hpack]
          exact ⟨rfl, hopen.put_changed hown hchild' hmark' hpack, rfl⟩

/-- What a visit that writes answers is settled where it ends, before any array is packed. -/
theorem StandsFor.visit_write_answer {α : Type} {act : Action α}
    {change : List Bytes → Except DataError (α × List Bytes)} (hact : WritesAs loose act change)
    (trail path : Path) {tree : Tree} {raw : Bytes} (h : tree.StandsFor loose raw) :
    (visit true act trail path tree).1 =
      PlainTree.read (fun now => (change now).map Prod.fst) trail path raw := by
  have hsettle (result : Except DataError α) (after : Tree) :
      (settle true result after).1 = result := by
    cases result <;> rfl
  induction path generalizing trail tree raw with
  | nil =>
    cases hraw : Packing.unpack maxElements raw with
    | error e =>
      simp only [visit, (h.materialize_error hraw).1, PlainTree.read, PlainTree.elements, hraw]
    | ok now =>
      obtain ⟨array, harray, hopen⟩ := h.materialize hraw
      obtain ⟨hfail, hdone⟩ := hact hopen
      simp only [visit, harray, hsettle, PlainTree.read, PlainTree.elements, hraw]
      cases hchange : change now with
      | error e =>
        obtain ⟨after, hrun, -⟩ := hfail e hchange
        rw [hrun]
        rfl
      | ok changed =>
        obtain ⟨answer, changed⟩ := changed
        obtain ⟨packed, after, -, hrun, -⟩ := hdone answer changed hchange
        rw [hrun]
        rfl
  | cons index rest ih =>
    cases h.firstStep trail index rest with
    | unreadable hraw hvisit =>
      simp only [hvisit, PlainTree.read, PlainTree.elements, hraw]
    | missing hopen hmark hnone hvisit =>
      simp only [hvisit, PlainTree.read, PlainTree.elements, PlainTree.element, hopen.unpack, hnone]
    | leaf hopen hmark hown hleaf hvisit =>
      simp only [hvisit, PlainTree.read, PlainTree.elements, PlainTree.element, hopen.unpack, hown]
      cases rest <;> simp only [PlainTree.read, PlainTree.elements, hleaf]
    | descend hopen hmark hown hchild hpending hvisit =>
      simp only [hvisit, hsettle, PlainTree.read, PlainTree.elements, PlainTree.element,
        hopen.unpack, hown]
      exact ih (trail.child index) hchild

end Tree
end ByteFormula
