import ByteFormula.Proofs.Packing
import ByteFormula.Proofs.PlainTree

/-! What a tree stands for. A node may hold elements, cached bytes and branches of different ages;
`StandsFor` says which single byte string they amount to. Writing back changes none of it, and a
tree asked for its bytes answers with that byte string, or with another packed form of the same
elements after an array has refused an element for being full. -/
namespace ByteFormula

namespace Branches

def indices : Branches → List UInt8
  | .none => []
  | .branch index _ rest => index :: rest.indices

def Sorted (branches : Branches) : Prop :=
  branches.indices.Pairwise (· < ·)

def pending (branches : Branches) (index : UInt8) : Bool :=
  match branches.get? index with
  | Option.none => false
  | some child => child.unwritten

@[simp] theorem get?_branch (index i : UInt8) (tree : Tree) (rest : Branches) :
    (Branches.branch i tree rest).get? index = if i = index then some tree else rest.get? index :=
  rfl

private theorem pending_branch (index i : UInt8) (tree : Tree) (rest : Branches) :
    (Branches.branch i tree rest).pending index =
      if i = index then tree.unwritten else rest.pending index := by
  by_cases h : i = index <;> simp [pending, h]

theorem get?_put (index i : UInt8) (tree : Tree) (branches : Branches) :
    (branches.put i tree).get? index = if i = index then some tree else branches.get? index := by
  fun_induction put i tree branches with
  | case1 => rfl
  | case2 rest old => grind [get?]
  | case3 j old rest hne hlt => grind [get?]
  | case4 j old rest hne hlt ih => grind [get?]

theorem pending_put (index i : UInt8) (tree : Tree) (branches : Branches) :
    (branches.put i tree).pending index =
      if i = index then tree.unwritten else branches.pending index := by
  by_cases h : i = index <;> simp [pending, get?_put, h]

theorem get?_erase (index i : UInt8) (branches : Branches) :
    (branches.erase i).get? index = if i = index then Option.none else branches.get? index := by
  fun_induction erase i branches with
  | case1 => simp [get?]
  | case2 tree rest ih => grind [get?]
  | case3 j tree rest hne ih => grind [get?]

theorem mem_indices (index : UInt8) :
    (branches : Branches) → (index ∈ branches.indices ↔ branches.get? index ≠ Option.none)
  | .none => by simp [indices, get?]
  | .branch i tree rest => by
    simp only [indices, List.mem_cons, get?_branch, mem_indices index rest]
    by_cases hsame : i = index
    · simp [hsame]
    · simp [hsame, Ne.symm hsame]

theorem get?_eq_none_congr {branches after : Branches} (h : after.indices = branches.indices)
    (index : UInt8) : after.get? index = Option.none ↔ branches.get? index = Option.none := by
  have hmem := mem_indices index after
  rw [h, mem_indices] at hmem
  exact Decidable.not_iff_not.mp hmem.symm

namespace Sorted

theorem congr {branches after : Branches} (h : branches.Sorted)
    (hsame : after.indices = branches.indices) : after.Sorted := by
  rw [Sorted, hsame]
  exact h

theorem rest {index : UInt8} {tree : Tree} {rest : Branches}
    (h : (Branches.branch index tree rest).Sorted) : rest.Sorted :=
  (List.pairwise_cons.mp h).2

/-- The first index does not occur again. -/
theorem get?_first {index : UInt8} {tree : Tree} {rest : Branches}
    (h : (Branches.branch index tree rest).Sorted) : rest.get? index = Option.none :=
  Decidable.byContradiction fun hsome =>
    UInt8.lt_irrefl index ((List.pairwise_cons.mp h).1 index ((mem_indices index rest).mpr hsome))

/-- What the rest knows under an index the whole knows as well. -/
theorem get?_of_rest {index i : UInt8} {tree child : Tree} {rest : Branches}
    (h : (Branches.branch index tree rest).Sorted) (hchild : rest.get? i = some child) :
    (Branches.branch index tree rest).get? i = some child := by
  rw [get?_branch, if_neg, hchild]
  rintro rfl
  rw [h.get?_first] at hchild
  cases hchild

theorem put {branches : Branches} (h : branches.Sorted) (i : UInt8) (tree : Tree) :
    (branches.put i tree).Sorted := by
  fun_induction Branches.put i tree branches with
  | case1 => exact List.pairwise_singleton _ _
  | case2 rest old => exact h
  | case3 j old rest hne hlt =>
    refine List.pairwise_cons.mpr ⟨List.forall_mem_cons.mpr ⟨hlt, fun k hk => ?_⟩, h⟩
    exact UInt8.lt_trans hlt ((List.pairwise_cons.mp h).1 k hk)
  | case4 j old rest hne hge ih =>
    obtain ⟨hfirst, hrest⟩ := List.pairwise_cons.mp h
    refine List.pairwise_cons.mpr ⟨fun k hk => ?_, ih hrest⟩
    rw [mem_indices, get?_put] at hk
    split at hk
    · subst_vars
      exact UInt8.lt_of_le_of_ne (UInt8.not_lt.mp hge) hne
    · exact hfirst k ((mem_indices k rest).mpr hk)

theorem erase {branches : Branches} (h : branches.Sorted) (i : UInt8) :
    (branches.erase i).Sorted := by
  fun_induction Branches.erase i branches with
  | case1 => exact .nil
  | case2 tree rest ih => exact ih h.rest
  | case3 j tree rest hne ih =>
    obtain ⟨hfirst, hrest⟩ := List.pairwise_cons.mp h
    refine List.pairwise_cons.mpr ⟨fun k hk => ?_, ih hrest⟩
    rw [mem_indices, get?_erase] at hk
    split at hk
    · exact absurd rfl hk
    · exact hfirst k ((mem_indices k rest).mpr hk)

end Sorted

end Branches

namespace Tree

/-- The second byte string is how `pack` writes the elements of the first, which is the packed form
of a full array. -/
def Repacked (raw value : Bytes) : Prop :=
  ∃ now, Packing.unpack maxElements raw = .ok now ∧ now.length = maxElements ∧
    Packing.pack now = .ok value

/-- What a tree may answer with if it stands for `raw`. A full array that refuses an element forgets
the bytes that it came from: if that is allowed to have happened, it may have been packed anew. -/
def Rereads (loose : Bool) (raw value : Bytes) : Prop :=
  value = raw ∨ loose = true ∧ Repacked raw value

theorem rereads_false : Rereads false = fun raw value => value = raw := by
  funext raw value
  simp [Rereads]

theorem rereads_true : Rereads true = fun raw value => value = raw ∨ Repacked raw value := by
  funext raw value
  simp [Rereads]

theorem Rereads.unpack_eq {loose : Bool} {raw value : Bytes} (h : Rereads loose raw value) :
    Packing.unpack maxElements value = Packing.unpack maxElements raw := by
  rcases h with rfl | ⟨-, now, hraw, hlength, hpack⟩
  · rfl
  · rw [hraw, Packing.unpack_pack hpack (Nat.le_of_eq hlength)]

/-- Bytes that `pack` has written are only reread as themselves. -/
theorem Rereads.eq_of_pack {loose : Bool} {raw value : Bytes} {now : List Bytes}
    (h : Rereads loose raw value) (hraw : Packing.unpack maxElements raw = .ok now)
    (hpack : Packing.pack now = .ok raw) : value = raw := by
  rcases h with rfl | ⟨-, now', hraw', -, hpack'⟩
  · rfl
  · cases hraw.symm.trans hraw'
    cases hpack.symm.trans hpack'
    rfl

/-- A tree stands for a byte string. Bytes that nobody has unpacked stand for themselves. The
array of an opened node may be behind: `now` are the elements it amounts to, which a branch knows
better than the array as long as it is pending. Without changes the cached bytes are current;
after a change they are gone, or a pending branch will drop them before anyone looks. What the
parent does not have yet, it gets as `pack` writes it. -/
inductive StandsFor (loose : Bool) : Tree → Bytes → Prop where
  | packed (raw : Bytes) :
      StandsFor loose (.node ⟨.packed raw, maxElements⟩ .none false false) raw
  | opened {elements : Array Bytes} {cached : Option Bytes} {branches : Branches}
      {dirty unwritten : Bool} {raw : Bytes} {now : List Bytes}
      (hraw : Packing.unpack maxElements raw = .ok now)
      (hsize : elements.size = now.length)
      (hsorted : branches.Sorted)
      (hinside : ∀ index child, branches.get? index = some child → index.toNat < now.length)
      (hbranch : ∀ index child own, branches.get? index = some child →
        now[index.toNat]? = some own → StandsFor loose child own)
      (hplain : ∀ index, branches.pending index = false →
        elements[index.toNat]? = now[index.toNat]?)
      (hclean : dirty = false → (∀ index, branches.pending index = false) ∧
        match cached with
        | some bytes => Rereads loose raw bytes
        | none => ∃ value, Packing.pack now = .ok value ∧ Rereads loose raw value)
      (hdirty : dirty = true → unwritten = true ∧
        (cached = none ∨ ∃ index, branches.pending index = true))
      (hpending : unwritten = true → Packing.pack now = .ok raw) :
      StandsFor loose (.node ⟨.opened elements cached, maxElements⟩ branches dirty unwritten) raw

abbrev Represents : Tree → Bytes → Prop := StandsFor false

variable {loose : Bool}

theorem standsFor_empty : StandsFor loose empty Packing.empty := by
  have hraw : Packing.unpack maxElements Packing.empty = .ok [] := rfl
  exact .opened hraw rfl .nil (by simp [Branches.get?]) (by simp [Branches.get?]) (by simp)
    (fun _ => ⟨fun _ => rfl, _, rfl, .inl rfl⟩) (by simp) (by simp)

theorem standsFor_ofBytes (raw : Bytes) : StandsFor loose (ofBytes raw) raw :=
  .packed raw

theorem represents_ofBytes (raw : Bytes) : (ofBytes raw).Represents raw :=
  standsFor_ofBytes raw

/-- An array just unpacked stands for the bytes it came from. -/
theorem standsFor_ofArray {raw : Bytes} {now : List Bytes}
    (h : Packing.unpack maxElements raw = .ok now) :
    StandsFor loose (ofArray ⟨.opened now.toArray (some raw), maxElements⟩) raw :=
  .opened h rfl .nil (by simp [Branches.get?]) (by simp [Branches.get?]) (by simp)
    (fun _ => ⟨fun _ => rfl, .inl rfl⟩) (by simp) (by simp)

end Tree

namespace LazyArray

private theorem set_opened {elements : Array Bytes} {index : Nat} {data : Bytes}
    (cached : Option Bytes)
    (limit : Nat) (hdata : data.length < Bytes.capacity 4) (hindex : index < elements.size) :
    set ⟨.opened elements cached, limit⟩ index data =
      (.ok (), ⟨.opened (elements.setIfInBounds index data) none, limit⟩) := by
  obtain ⟨c, hc⟩ := (LengthClass.forLength_ok_iff _).mpr hdata
  simp [set, hc, materialize, hindex]

private theorem set_overlong {index : Nat} {data : Bytes} {array : LazyArray}
    (h : Bytes.capacity 4 ≤ data.length) :
    array.set index data = (.error (.elementTooLong data.length), array) := by
  simp only [set, LengthClass.forLength_overlong h]

end LazyArray

namespace Tree

/-- Arrays inside a tree are short enough for a byte to reach each of their elements. -/
private theorem toList_eq_of_index {elements : Array Bytes} {now : List Bytes}
    (hsize : elements.size = now.length) (hsmall : now.length ≤ maxElements)
    (h : ∀ index : UInt8, elements[index.toNat]? = now[index.toNat]?) : elements.toList = now := by
  apply List.ext_getElem?
  intro i
  by_cases hi : i < 256
  · have hindex := h (UInt8.ofNat i)
    rw [UInt8.toNat_ofNat', Nat.mod_eq_of_lt hi] at hindex
    rw [Array.getElem?_toList, hindex]
  · have hfar : now.length ≤ i := by
      simp only [maxElements] at hsmall
      omega
    rw [List.getElem?_eq_none (by simpa [hsize] using hfar), List.getElem?_eq_none hfar]

/-- The bytes of a clean tree are those it stands for. -/
theorem StandsFor.array_bytes {tree : Tree} {raw : Bytes} (h : tree.StandsFor loose raw)
    (hclean : tree.dirty = false) :
    ∃ value array, tree.array.bytes = (.ok value, array) ∧ Rereads loose raw value ∧
      (tree.unwritten = true → value = raw) ∧ (tree.withArray array).StandsFor loose raw := by
  cases h with
  | packed raw => exact ⟨raw, _, rfl, .inl rfl, fun _ => rfl, .packed raw⟩
  | @opened elements cached branches dirty unwritten raw now hraw hsize hsorted hinside hbranch
      hplain hcurrent hdirty hpending =>
    cases (show dirty = false from hclean)
    obtain ⟨hwritten, hcached⟩ := hcurrent rfl
    have hexact {value : Bytes} (hvalue : Rereads loose raw value) (hflag : unwritten = true) :
        value = raw := hvalue.eq_of_pack hraw (hpending hflag)
    cases cached with
    | some bytes =>
      exact ⟨bytes, _, rfl, hcached, hexact hcached,
        .opened hraw hsize hsorted hinside hbranch hplain hcurrent hdirty hpending⟩
    | none =>
      obtain ⟨value, hpack, hvalue⟩ := hcached
      have hnow : elements.toList = now := toList_eq_of_index hsize (Packing.length_unpack hraw)
        fun index => hplain index (hwritten index)
      refine ⟨value, ⟨.opened elements (some value), maxElements⟩, ?_, hvalue, hexact hvalue, ?_⟩
      · simp only [array, LazyArray.bytes, hnow, hpack]
      · exact .opened hraw hsize hsorted hinside hbranch hplain (fun _ => ⟨hwritten, hvalue⟩)
          nofun hpending

/-- A clean tree may be marked as written. -/
theorem StandsFor.written {array : LazyArray} {branches : Branches} {unwritten : Bool}
    {raw : Bytes} (h : StandsFor loose (.node array branches false unwritten) raw) :
    StandsFor loose (.node array branches false false) raw := by
  cases h with
  | packed => exact .packed _
  | opened hraw hsize hsorted hinside hbranch hplain hclean hdirty hpending =>
    exact .opened hraw hsize hsorted hinside hbranch hplain hclean (by simp) (by simp)

/-- Branches after a write-back: the same indices, nothing pending, and the same contents. -/
structure Settled (loose : Bool) (branches after : Branches) (now : List Bytes) : Prop where
  indices : after.indices = branches.indices
  standsFor : ∀ index child own, after.get? index = some child →
    now[index.toNat]? = some own → child.StandsFor loose own
  written : ∀ index, after.pending index = false

private theorem Settled.branch {rest after : Branches} {now : List Bytes} {index : UInt8}
    {tree : Tree} (before : Tree) (h : Settled loose rest after now)
    (htree : ∀ own, now[index.toNat]? = some own → tree.StandsFor loose own)
    (hwritten : tree.unwritten = false) :
    Settled loose (.branch index before rest) (.branch index tree after) now where
  indices := congrArg (index :: ·) h.indices
  standsFor i child own hchild hown := by
    rw [Branches.get?_branch] at hchild
    split at hchild
    · cases hchild
      subst_vars
      exact htree own hown
    · exact h.standsFor i child own hchild hown
  written i := by
    rw [Branches.pending_branch]
    split
    · exact hwritten
    · exact h.written i

/-- An array after a write-back: pending branches have put in their bytes, which `now` lists. -/
structure Filled (branches : Branches) (now : List Bytes) (before elements : Array Bytes) :
    Prop where
  size : elements.size = before.size
  element : ∀ index : UInt8, elements[index.toNat]? =
    if branches.pending index then now[index.toNat]? else before[index.toNat]?

private theorem Filled.skip {rest : Branches} {now : List Bytes} {before elements : Array Bytes}
    {index : UInt8} {tree : Tree} (h : Filled rest now before elements)
    (hnew : rest.get? index = none) (hwritten : tree.unwritten = false) :
    Filled (.branch index tree rest) now before elements where
  size := h.size
  element i := by
    rw [Branches.pending_branch, h.element]
    by_cases hi : index = i
    · subst hi
      simp [Branches.pending, hnew, hwritten]
    · simp [hi]

private theorem Filled.put {rest : Branches} {now : List Bytes} {before elements : Array Bytes}
    {index : UInt8} {tree : Tree} {own : Bytes}
    (h : Filled rest now (before.setIfInBounds index.toNat own) elements)
    (hnew : rest.get? index = none) (hown : now[index.toNat]? = some own)
    (hsize : before.size = now.length) (hunwritten : tree.unwritten = true) :
    Filled (.branch index tree rest) now before elements where
  size := by rw [h.size, Array.size_setIfInBounds]
  element i := by
    rw [Branches.pending_branch, h.element]
    by_cases hi : index = i
    · subst hi
      have hinside : index.toNat < before.size := hsize ▸ (List.getElem?_eq_some_iff.mp hown).1
      simp [Branches.pending, hnew, hunwritten, hown, hinside]
    · have hne : index.toNat ≠ i.toNat := fun heq => hi (UInt8.toNat_inj.mp heq)
      simp [hi, hne]

end Tree

def Tree.writeInto (tree : Tree) (index : UInt8) (array : LazyArray) :
    Except DataError Unit × LazyArray × Tree :=
  if tree.unwritten then
    match tree.sync with
    | (.error e, tree) => (.error e, array, tree)
    | (.ok _, tree) => tree.putBack index array
  else (.ok (), array, tree)

theorem Tree.writeInto_written {tree : Tree} (h : tree.unwritten = false) (index : UInt8)
    (array : LazyArray) : tree.writeInto index array = (.ok (), array, tree) := by
  rw [Tree.writeInto, if_neg (Bool.eq_false_iff.mp h)]

theorem Tree.writeInto_unwritten {tree : Tree} (h : tree.unwritten = true) (index : UInt8)
    (array : LazyArray) :
    tree.writeInto index array =
      match tree.sync with
      | (.error e, tree) => (.error e, array, tree)
      | (.ok _, tree) => tree.putBack index array := by
  rw [Tree.writeInto, if_pos h]

namespace Branches

variable {index : UInt8} {tree after : Tree} {array filled : LazyArray} {rest : Branches}

private theorem writeBack_branch (index : UInt8) (tree : Tree) (rest : Branches)
    (array : LazyArray) :
    (Branches.branch index tree rest).writeBack array =
      match tree.writeInto index array with
      | (.error e, array, tree) => (.error e, array, .branch index tree rest)
      | (.ok _, array, tree) =>
        match rest.writeBack array with
        | (result, array, rest) => (result, array, .branch index tree rest) := by
  rw [writeBack]
  rfl

/-- If the first branch cannot be written, the others are left alone. -/
theorem writeBack_of_error {e : DataError}
    (h : tree.writeInto index array = (.error e, filled, after)) :
    (Branches.branch index tree rest).writeBack array =
      (.error e, filled, .branch index after rest) := by
  rw [writeBack_branch, h]

/-- Once the first branch is written, the others are written into the array that has it. -/
theorem writeBack_of_ok (h : tree.writeInto index array = (.ok (), filled, after)) :
    (Branches.branch index tree rest).writeBack array =
      ((rest.writeBack filled).1, (rest.writeBack filled).2.1,
        .branch index after (rest.writeBack filled).2.2) := by
  rw [writeBack_branch, h]

end Branches

/-- Writing back changes trees and the array, and keeps every branch in its place. -/
theorem Branches.indices_writeBack :
    (branches : Branches) → (array : LazyArray) →
      (branches.writeBack array).2.2.indices = branches.indices
  | .none, _ => rfl
  | .branch index tree rest, array => by
    rcases hinto : tree.writeInto index array with ⟨e | done, filled, after⟩
    · rw [Branches.writeBack_of_error hinto]
      rfl
    · rw [Branches.writeBack_of_ok hinto]
      exact congrArg (index :: ·) (Branches.indices_writeBack rest filled)

/-- A branch whose bytes the parent does not have is written as `pack` writes it. -/
theorem Tree.StandsFor.writeInto {loose : Bool} {tree synced : Tree} {own : Bytes}
    (h : synced.StandsFor loose own) (hsync : tree.sync = (.ok (), synced))
    (hclean : synced.dirty = false) (hmark : synced.unwritten = tree.unwritten)
    (hflag : tree.unwritten = true) (index : UInt8) (array : LazyArray) :
    ∃ failed written, tree.writeInto index array =
        (match array.set index.toNat own with
        | (.error e, array) => (.error e, array, failed)
        | (.ok _, array) => (.ok (), array, written)) ∧
      written.StandsFor loose own ∧ written.unwritten = false := by
  obtain ⟨value, packed, hbytes, -, hexact, hstands⟩ := h.array_bytes hclean
  cases hexact (hmark.trans hflag)
  refine ⟨synced.withArray packed, (synced.withArray packed).written, ?_, ?_, rfl⟩
  · rw [Tree.writeInto_unwritten hflag, hsync]
    rcases hset : array.set index.toNat own with ⟨_ | _, after⟩ <;>
      simp only [Tree.putBack, hbytes, hset]
  · obtain ⟨_, _, dirty, _⟩ := synced
    cases (show dirty = false from hclean)
    exact hstands.written

mutual
/-- A write-back succeeds and leaves a clean tree with the same contents. -/
theorem Tree.sync_standsFor {loose : Bool} {raw : Bytes} :
    (tree : Tree) → tree.StandsFor loose raw →
      ∃ after, tree.sync = (.ok (), after) ∧ after.StandsFor loose raw ∧ after.dirty = false ∧
        after.unwritten = tree.unwritten
  | .node array branches dirty unwritten, h => by
    cases h with
    | packed => exact ⟨_, rfl, .packed _, rfl, rfl⟩
    | @opened elements cached _ _ _ _ now hraw hsize hsorted hinside hbranch hplain hclean
        hdirty hpending =>
      cases dirty with
      | false =>
        exact ⟨_, rfl, .opened hraw hsize hsorted hinside hbranch hplain hclean hdirty hpending,
          rfl, rfl⟩
      | true =>
        obtain ⟨hunwritten, hstale⟩ := hdirty rfl
        have hpack := hpending hunwritten
        obtain ⟨written, cached', after, hrun, hfilled, hcached, hsettled⟩ :=
          Branches.writeBack_fills cached Tree.maxElements branches elements now hsorted hsize
            (fun _ => Packing.length_lt_of_unpack hraw) hinside hbranch
        cases hcached hstale
        refine ⟨.node ⟨.opened written none, Tree.maxElements⟩ after false unwritten, ?_, ?_, rfl,
          rfl⟩
        · simp only [Tree.sync, hrun, reduceIte]
        · refine .opened hraw (hfilled.size.trans hsize) (hsorted.congr hsettled.indices) ?_
            hsettled.standsFor
            ?_ (fun _ => ⟨hsettled.written, raw, hpack, .inl rfl⟩) (by simp) hpending
          · intro index child hchild
            cases hold : branches.get? index with
            | none =>
              rw [(Branches.get?_eq_none_congr hsettled.indices index).mpr hold] at hchild
              cases hchild
            | some old => exact hinside index old hold
          · intro index _
            rw [hfilled.element]
            split
            · rfl
            · exact hplain index (Bool.eq_false_iff.mpr ‹_›)

/-- The unwritten branches of an array are written into it, and nothing else changes. -/
theorem Branches.writeBack_fills {loose : Bool} (cached : Option Bytes) (limit : Nat) :
    (branches : Branches) → (elements : Array Bytes) → (now : List Bytes) → branches.Sorted →
      elements.size = now.length → (∀ element ∈ now, element.length < Bytes.capacity 4) →
      (∀ index child, branches.get? index = some child → index.toNat < now.length) →
      (∀ index child own, branches.get? index = some child → now[index.toNat]? = some own →
        child.StandsFor loose own) →
      ∃ elements' cached' after,
        branches.writeBack ⟨.opened elements cached, limit⟩ =
          (.ok (), ⟨.opened elements' cached', limit⟩, after) ∧
        Tree.Filled branches now elements elements' ∧
        (cached = none ∨ (∃ index, branches.pending index = true) → cached' = none) ∧
        Tree.Settled loose branches after now
  | .none, elements, now, _, _, _, _, _ => by
    refine ⟨elements, cached, .none, rfl, ⟨rfl, ?_⟩, ?_, ⟨rfl, ?_, ?_⟩⟩
    all_goals simp [Branches.pending, Branches.get?]
  | .branch index tree rest, elements, now, hsorted, hsize, hshort, hinside, hbranch => by
    obtain ⟨own, hown⟩ : ∃ own, now[index.toNat]? = some own :=
      ⟨_, List.getElem?_eq_getElem (hinside index tree (by simp))⟩
    have htree (own : Bytes) : now[index.toNat]? = some own → tree.StandsFor loose own :=
      hbranch index tree own (by simp)
    have hinsideRest := fun i child hchild => hinside i child (hsorted.get?_of_rest hchild)
    have hbranchRest := fun i child own hchild =>
      hbranch i child own (hsorted.get?_of_rest hchild)
    cases hflag : tree.unwritten with
    | false =>
      obtain ⟨written, cached', after, hrun, hfilled, hcached, hsettled⟩ :=
        Branches.writeBack_fills cached limit rest elements now hsorted.rest hsize hshort
          hinsideRest hbranchRest
      refine ⟨written, cached', .branch index tree after, ?_, hfilled.skip hsorted.get?_first hflag,
        ?_, hsettled.branch tree htree hflag⟩
      · rw [Branches.writeBack_of_ok (Tree.writeInto_written hflag index _), hrun]
      · rintro (hnone | ⟨i, hi⟩)
        · exact hcached (.inl hnone)
        · rw [Branches.pending_branch] at hi
          split at hi
          · simp_all
          · exact hcached (.inr ⟨i, hi⟩)
    | true =>
      obtain ⟨synced, hsync, hafter, hclean, hmark⟩ := Tree.sync_standsFor tree (htree own hown)
      obtain ⟨failed, put, hinto, hput, hwritten⟩ := hafter.writeInto hsync hclean hmark hflag index
        ⟨.opened elements cached, limit⟩
      have hinside := (List.getElem?_eq_some_iff.mp hown).1
      rw [LazyArray.set_opened cached limit (hshort own (List.mem_of_getElem? hown))
        (hsize ▸ hinside)] at hinto
      obtain ⟨written, cached', after, hrun, hfilled, hcached, hsettled⟩ :=
        Branches.writeBack_fills none limit rest (elements.setIfInBounds index.toNat own) now
          hsorted.rest (by rw [Array.size_setIfInBounds, hsize]) hshort hinsideRest hbranchRest
      refine ⟨written, cached', .branch index put after, ?_,
        hfilled.put hsorted.get?_first hown hsize hflag, fun _ => hcached (.inl rfl),
        hsettled.branch tree ?_ hwritten⟩
      · rw [Branches.writeBack_of_ok hinto, hrun]
      · intro other hother
        cases hown.symm.trans hother
        exact hput
end

namespace Tree

variable {loose : Bool}

/-- A tree asked for its bytes answers with what it stands for, and goes on standing for it. -/
theorem StandsFor.bytes {tree : Tree} {raw : Bytes} (h : tree.StandsFor loose raw) :
    ∃ value after, tree.bytes = (.ok value, after) ∧ Rereads loose raw value ∧
      after.StandsFor loose raw ∧ after.unwritten = tree.unwritten := by
  obtain ⟨after, hsync, hafter, hclean, hmark⟩ := Tree.sync_standsFor tree h
  obtain ⟨value, array, hbytes, hvalue, -, hstands⟩ := hafter.array_bytes hclean
  refine ⟨value, after.withArray array, ?_, hvalue, hstands, hmark⟩
  simp only [Tree.bytes, hsync, hbytes]

theorem Represents.bytes {tree : Tree} {raw : Bytes} (h : tree.Represents raw) :
    ∃ after, tree.bytes = (.ok raw, after) ∧ after.Represents raw := by
  obtain ⟨value, after, hbytes, hvalue, hafter, -⟩ := StandsFor.bytes h
  rw [rereads_false] at hvalue
  cases hvalue
  exact ⟨after, hbytes, hafter⟩

/-- The tree cannot be packed: an array in it has become too long to be an element. -/
def Overlong (tree : Tree) : Prop :=
  ∃ length, tree.sync.1 = .error (.elementTooLong length)

/-- A branch that cannot be packed, or is too long for an element, cannot be written. -/
theorem writeInto_overlong {tree : Tree} (hflag : tree.unwritten = true)
    (h : tree.Overlong ∨ ∃ own, tree.StandsFor loose own ∧ Bytes.capacity 4 ≤ own.length)
    (index : UInt8) (array : LazyArray) :
    ∃ length filled after,
      tree.writeInto index array = (.error (.elementTooLong length), filled, after) := by
  rcases h with ⟨length, hsync⟩ | ⟨own, hstands, hlong⟩
  · rw [writeInto_unwritten hflag]
    rcases hrun : tree.sync with ⟨result, after⟩
    rw [hrun] at hsync
    cases hsync
    exact ⟨length, array, after, rfl⟩
  · obtain ⟨synced, hsync, hafter, hclean, hmark⟩ := Tree.sync_standsFor tree hstands
    obtain ⟨failed, written, hinto, -⟩ := hafter.writeInto hsync hclean hmark hflag index array
    rw [LazyArray.set_overlong hlong] at hinto
    exact ⟨own.length, array, failed, hinto⟩

end Tree

/-- A write-back fails if one of the branches cannot be packed, or is too long for an element. -/
theorem Branches.writeBack_overlong {loose : Bool} {now : List Bytes} {index : UInt8} {child : Tree}
    (limit : Nat) (hshort : ∀ element ∈ now, element.length < Bytes.capacity 4)
    (hflag : child.unwritten = true)
    (hchild : child.Overlong ∨ ∃ own, child.StandsFor loose own ∧ Bytes.capacity 4 ≤ own.length) :
    (branches : Branches) → (elements : Array Bytes) → (cached : Option Bytes) →
      branches.Sorted → elements.size = now.length → branches.get? index = some child →
      (∀ i other, i ≠ index → branches.get? i = some other →
        ∃ own, now[i.toNat]? = some own ∧ other.StandsFor loose own) →
      ∃ length, (branches.writeBack ⟨.opened elements cached, limit⟩).1 =
        .error (.elementTooLong length)
  | .none, _, _, _, _, hget, _ => by cases hget
  | .branch i tree rest, elements, cached, hsorted, hsize, hget, hothers => by
    rw [Branches.get?_branch] at hget
    by_cases hi : i = index
    · rw [if_pos hi] at hget
      cases hget
      obtain ⟨length, filled, after, hinto⟩ :=
        Tree.writeInto_overlong hflag hchild i ⟨.opened elements cached, limit⟩
      exact ⟨length, by rw [Branches.writeBack_of_error hinto]⟩
    · rw [if_neg hi] at hget
      have hrest := fun j other hne hother =>
        hothers j other hne (hsorted.get?_of_rest hother)
      obtain ⟨own, hown, hstands⟩ := hothers i tree hi (by simp)
      cases hmark : tree.unwritten with
      | false =>
        rw [Branches.writeBack_of_ok (Tree.writeInto_written hmark i _)]
        exact Branches.writeBack_overlong limit hshort hflag hchild rest elements cached
          hsorted.rest hsize hget hrest
      | true =>
        have hindex := (List.getElem?_eq_some_iff.mp hown).1
        obtain ⟨synced, hsync, hafter, hclean, hkept⟩ := Tree.sync_standsFor tree hstands
        obtain ⟨failed, written, hinto, -⟩ := hafter.writeInto hsync hclean hkept hmark i
          ⟨.opened elements cached, limit⟩
        rw [LazyArray.set_opened cached limit (hshort own (List.mem_of_getElem? hown))
          (hsize ▸ hindex)] at hinto
        rw [Branches.writeBack_of_ok hinto]
        exact Branches.writeBack_overlong limit hshort hflag hchild rest
          (elements.setIfInBounds i.toNat own) Option.none hsorted.rest
          (by rw [Array.size_setIfInBounds, hsize]) hget hrest

end ByteFormula
