import ByteFormula.Proofs.Applications
import ByteFormula.Proofs.TreeCoherence

/-! Arrays read by functions and by trees. The functions unpack the bytes that they are given, with
room for as many elements as the format has. A tree keeps what it has unpacked and written, and has
room for as many elements as a byte of a path can name. On the bytes that a tree gives for a path
both agree, up to the arrays with more elements than a tree takes. -/
namespace ByteFormula

variable {σ : Type} {raw : Bytes} {elements : List Bytes}

/-- A tree takes the arrays that have few enough elements. -/
theorem Packing.unpack_tree_iff : unpack Tree.maxElements raw = .ok elements ↔
    unpack maxElements raw = .ok elements ∧ elements.length ≤ Tree.maxElements := by
  rw [unpack_eq_ok_iff, unpack_eq_ok_iff]
  constructor
  · rintro ⟨hlength, hform⟩
    exact ⟨⟨Nat.le_trans hlength (by decide), hform⟩, hlength⟩
  · rintro ⟨⟨-, hform⟩, hlength⟩
    exact ⟨hlength, hform⟩

private theorem LazyArray.read_ofBytes {α : Type} (raw : Bytes)
    (answer : Array Bytes → Except DataError α) :
    ((ofBytes raw Packing.maxElements).read answer).1 =
      match Packing.unpack Packing.maxElements raw with
      | .error e => .error e
      | .ok elements => answer elements.toArray := by
  have hmaterialize : (ofBytes raw Packing.maxElements).materialize =
      match Packing.unpack Packing.maxElements raw with
      | .error e => .error e
      | .ok elements => .ok ⟨.opened elements.toArray (some raw), Packing.maxElements⟩ := rfl
  rw [LazyArray.read, hmaterialize]
  cases Packing.unpack Packing.maxElements raw <;> rfl

namespace Setting.Furnished

variable {setting : Setting σ} (h : setting.Furnished)

include h

private theorem apply_element (raw : Bytes) (index : UInt8) :
    setting.apply "@Array8" [raw, [index]] = setting.report (.raisedBy "@Array8"
      (Embedded.ofData ((LazyArray.ofBytes raw Packing.maxElements).get index.toNat).1)) := by
  have hhosted : setting.registry.Hosted "@Array8" (.fixed 2) Embedded.arrayElement :=
    h.short (by simp [Embedded.shortTable])
  have hindex : Bytes.toNat [index] = index.toNat := by simp [Bytes.toNat]
  rw [h.apply_host hhosted rfl, ← hindex, ← Host.named_lift]
  rfl

/-- The functions answer from the elements, if there are any. -/
theorem apply_element_of_ok (hunpack : Packing.unpack Packing.maxElements raw = .ok elements)
    (index : UInt8) : setting.apply "@Array8" [raw, [index]] =
      match elements[index.toNat]? with
      | some value => .ok value
      | none =>
        setting.failure "@Array8" (.data (.indexOutOfBounds index.toNat elements.length)) := by
  rw [h.apply_element, LazyArray.get, LazyArray.read_ofBytes, hunpack]
  simp only [List.getElem?_toArray, List.size_toArray]
  cases elements[index.toNat]? <;> rfl

private theorem apply_element_of_error {e : DataError}
    (hunpack : Packing.unpack Packing.maxElements raw = .error e) (index : UInt8) :
    setting.apply "@Array8" [raw, [index]] = setting.failure "@Array8" (.data e) := by
  rw [h.apply_element, LazyArray.get, LazyArray.read_ofBytes, hunpack]
  rfl

private theorem apply_length (raw : Bytes) : setting.apply "ArrayLength8" [raw] =
    match Packing.unpack Packing.maxElements raw with
    | .error e => setting.failure "ArrayLength8" (.data e)
    | .ok elements =>
      if elements.length < 256 then .ok [UInt8.ofNat elements.length]
      else setting.failure "ArrayLength8" .overflow := by
  have hhosted : setting.Unary "ArrayLength8" Embedded.arrayLength :=
    h.short (by simp [Embedded.shortTable])
  rw [h.apply_unary hhosted, Embedded.arrayLength, LazyArray.length, LazyArray.read_ofBytes]
  cases Packing.unpack Packing.maxElements raw with
  | error e => rfl
  | ok elements =>
    simp only [List.size_toArray]
    split <;> rfl

end Setting.Furnished

/-- A tree that gives bytes for a path reads the array at the path from these bytes. -/
theorem PlainTree.read_of_bytesAt {α : Type} {whole : Bytes} {path : Path}
    (h : bytesAt whole path = .ok raw) (ask : List Bytes → Except DataError α) :
    read ask [] path whole =
      match PlainTree.elements path raw with
      | .error e => .error e
      | .ok elements => ask elements := by
  rcases List.eq_nil_or_concat path with rfl | ⟨front, last, rfl⟩
  · cases h
    rfl
  · rw [List.concat_eq_append] at h ⊢
    have hread : read (element front last) [] front whole = .ok raw := by
      simpa [bytesAt] using h
    change read ask [] (Path.child front last) whole = _
    rw [read_child, List.nil_append, hread]
    rfl

namespace Tree

variable {tree : Tree} {whole : Bytes} {path : Path}

/-- Whoever asks for the array at a path is told that there is none. -/
structure NoArrayAt (tree : Tree) (path : Path) : Prop where
  bytesAt : ∀ index, (tree.bytesAt (path.child index)).1 = .error (.notAnArray path)
  lengthAt : (tree.lengthAt path).1 = .error (.notAnArray path)
  isFullAt : (tree.isFullAt path).1 = .error (.notAnArray path)
  pushAt : ∀ data, (tree.pushAt data path).1 = .error (.notAnArray path)
  setAt : ∀ index data, (tree.setAt index data path).1 = .error (.notAnArray path)
  subtreeAt : (tree.subtreeAt path).1 = .error (.notAnArray path)

theorem Represents.bytesAt_child (h : tree.Represents whole)
    (hraw : PlainTree.bytesAt whole path = .ok raw) (index : UInt8) :
    (tree.bytesAt (path.child index)).1 =
      match PlainTree.elements path raw with
      | .error e => .error e
      | .ok elements => PlainTree.element path index elements := by
  obtain ⟨after, hrun, -⟩ := h.bytesAt (path.child index)
  have hplain := PlainTree.bytesAt_child whole path index
  rw [hraw] at hplain
  exact (congrArg Prod.fst hrun).trans hplain

private theorem Represents.lengthAt_eq (h : tree.Represents whole)
    (hraw : PlainTree.bytesAt whole path = .ok raw) :
    (tree.lengthAt path).1 =
      match PlainTree.elements path raw with
      | .error e => .error e
      | .ok elements => .ok elements.length := by
  obtain ⟨after, hrun, -⟩ := StandsFor.lengthAt h path
  exact (congrArg Prod.fst hrun).trans (PlainTree.read_of_bytesAt hraw _)

private theorem Represents.noArrayAt (h : tree.Represents whole)
    (hraw : PlainTree.bytesAt whole path = .ok raw)
    (hnone : PlainTree.elements path raw = .error (.notAnArray path)) : tree.NoArrayAt path where
  bytesAt index := by rw [h.bytesAt_child hraw, hnone]
  lengthAt := by rw [h.lengthAt_eq hraw, hnone]
  isFullAt := by
    obtain ⟨after, hrun, -⟩ := StandsFor.isFullAt h path
    rw [hrun, PlainTree.isFullAt, PlainTree.read_of_bytesAt hraw, hnone]
  pushAt data := by rw [StandsFor.pushAt_answer h, PlainTree.read_of_bytesAt hraw, hnone]
  setAt index data := by rw [StandsFor.setAt_answer h, PlainTree.read_of_bytesAt hraw, hnone]
  subtreeAt := by
    obtain ⟨result, after, hrun, -, hresult⟩ := StandsFor.subtreeAt h path
    simp only [PlainTree.subtreeAt, hraw, hnone] at hresult
    rw [hrun, hresult]

end Tree

section

variable {setting : Setting σ} (h : setting.Furnished) {reader : Tree} {whole : Bytes} {path : Path}
  (hreader : reader.Represents whole) (hraw : PlainTree.bytesAt whole path = .ok raw)

include h hreader hraw

/-- An array that a tree takes is read in the same way by the functions. -/
theorem Tree.Represents.reads_array (hunpack : Packing.unpack Tree.maxElements raw = .ok elements)
    (index : UInt8) :
    (∀ value, setting.apply "@Array8" [raw, [index]] = .ok value ↔
      (reader.bytesAt (path.child index)).1 = .ok value) ∧
    ((∃ asked count, setting.apply "@Array8" [raw, [index]] =
        setting.failure "@Array8" (.data (.indexOutOfBounds asked count))) ↔
      (reader.bytesAt (path.child index)).1 = .error (.pathNotFound (path.child index))) ∧
    ∃ count < 256, (reader.lengthAt path).1 = .ok count ∧
      setting.apply "ArrayLength8" [raw] = .ok [UInt8.ofNat count] := by
  obtain ⟨hwide, hfew⟩ := Packing.unpack_tree_iff.mp hunpack
  have helements : PlainTree.elements path raw = .ok elements := by rw [PlainTree.elements, hunpack]
  have hroom : elements.length < 256 := Nat.lt_succ_of_le hfew
  have hlanguage := h.apply_element_of_ok hwide index
  have htree := hreader.bytesAt_child hraw index
  simp only [helements, PlainTree.element] at htree
  refine ⟨?_, ?_, elements.length, hroom, ?_, ?_⟩
  · intro value
    rw [hlanguage, htree]
    cases elements[index.toNat]? with
    | none => exact ⟨fun hok => (by cases hok), fun hok => (by cases hok)⟩
    | some own => exact ⟨fun hok => (by cases hok; rfl), fun hok => (by cases hok; rfl)⟩
  · rw [hlanguage, htree]
    cases elements[index.toNat]? with
    | none => exact ⟨fun _ => rfl, fun _ => ⟨_, _, rfl⟩⟩
    | some own =>
      refine ⟨?_, fun hfail => (by cases hfail)⟩
      rintro ⟨asked, count, hfault⟩
      cases hfault
  · rw [hreader.lengthAt_eq hraw, helements]
  · rw [h.apply_length, hwide]
    exact if_pos hroom

/-- Bytes that are no array for a tree are none for the functions either, unless there are too many
elements for a tree. -/
theorem Tree.Represents.reads_no_array
    (hunpack : ∀ elements, Packing.unpack Tree.maxElements raw ≠ .ok elements) (index : UInt8) :
    reader.NoArrayAt path ∧
    (∃ kind, setting.apply "ArrayLength8" [raw] = setting.failure "ArrayLength8" kind) ∧
    ∀ value, setting.apply "@Array8" [raw, [index]] = .ok value →
      ∃ elements, Packing.unpack Packing.maxElements raw = .ok elements ∧
        Tree.maxElements < elements.length := by
  have hmany {elements : List Bytes}
      (hwide : Packing.unpack Packing.maxElements raw = .ok elements) :
      Tree.maxElements < elements.length := by
    apply Nat.lt_of_not_le
    exact fun hfew => hunpack elements (Packing.unpack_tree_iff.mpr ⟨hwide, hfew⟩)
  refine ⟨hreader.noArrayAt hraw ?_, ?_, ?_⟩
  · rw [PlainTree.elements]
    split
    · rfl
    · exact absurd ‹_› (hunpack _)
  · rw [h.apply_length]
    split
    · exact ⟨_, rfl⟩
    · rename_i elements hwide
      exact ⟨_, if_neg (Nat.not_lt.mpr (hmany hwide))⟩
  · intro value hvalue
    cases hwide : Packing.unpack Packing.maxElements raw with
    | ok elements => exact ⟨elements, rfl, hmany hwide⟩
    | error e =>
      rw [h.apply_element_of_error hwide] at hvalue
      cases hvalue

end

namespace Session

variable {setting : Setting σ}

/-- What a tree gives for a path is read by the functions as by the tree itself. -/
theorem element_reads_agree (h : setting.Furnished) (requests : List Request)
    (hfull : ∀ answer ∈ run [] requests, answer.isFull = false)
    (hsize : ∀ state ∈ states [] requests, ∀ tree ∈ state, tree.isOverlong = false) {tree : Tree}
    (htree : tree ∈ after [] requests) (path : Path) {raw : Bytes}
    (hraw : (tree.bytesAt path).1 = .ok raw) {reader : Tree}
    (hreader : reader ∈ [tree, (tree.bytesAt path).2]) (index : UInt8) :
    (∀ elements, Packing.unpack Tree.maxElements raw = .ok elements →
      (∀ value, setting.apply "@Array8" [raw, [index]] = .ok value ↔
        (reader.bytesAt (path.child index)).1 = .ok value) ∧
      ((∃ asked count, setting.apply "@Array8" [raw, [index]] =
          setting.failure "@Array8" (.data (.indexOutOfBounds asked count))) ↔
        (reader.bytesAt (path.child index)).1 = .error (.pathNotFound (path.child index))) ∧
      ∃ count < 256, (reader.lengthAt path).1 = .ok count ∧
        setting.apply "ArrayLength8" [raw] = .ok [UInt8.ofNat count]) ∧
    ((∀ elements, Packing.unpack Tree.maxElements raw ≠ .ok elements) →
      reader.NoArrayAt path ∧
      (∃ kind, setting.apply "ArrayLength8" [raw] = setting.failure "ArrayLength8" kind) ∧
      ∀ value, setting.apply "@Array8" [raw, [index]] = .ok value →
        ∃ elements, Packing.unpack Packing.maxElements raw = .ok elements ∧
          Tree.maxElements < elements.length) := by
  have hnone : Sound false [] := fun _ hmem => (by cases hmem)
  obtain ⟨whole, hwhole⟩ := after_sound hnone requests (.inr hfull) hsize tree htree
  obtain ⟨later, hrun, hlater⟩ := Tree.Represents.bytesAt hwhole path
  rw [hrun] at hraw hreader
  -- Both trees stand for the same bytes, whatever they have unpacked.
  have hstands : reader.Represents whole := by
    rcases List.mem_cons.mp hreader with rfl | hsecond
    · exact hwhole
    · cases List.mem_singleton.mp hsecond
      exact hlater
  exact ⟨fun elements hunpack => hstands.reads_array h hraw hunpack index,
    fun hunpack => hstands.reads_no_array h hraw hunpack index⟩

theorem element_reads_agree_interleaved :
    (∀ answer ∈ run [] interleaved, answer.isFull = false) ∧
    (∀ state ∈ states [] interleaved, ∀ tree ∈ state, tree.isOverlong = false) ∧
    ∃ setting : Setting Tree, setting.Furnished ∧ ∃ tree ∈ after [] interleaved,
      (tree.bytesAt [1]).1 = .ok [64, 1, 5, 64, 1, 2, 7, 7] ∧
      setting.apply "@Array8" [[64, 1, 5, 64, 1, 2, 7, 7], [0]] = .ok [64, 1, 2, 7, 7] ∧
      ∃ count < 256, (tree.lengthAt [1]).1 = .ok count ∧
        setting.apply "ArrayLength8" [[64, 1, 5, 64, 1, 2, 7, 7]] = .ok [UInt8.ofNat count] := by
  have hfull : ∀ answer ∈ run [] interleaved, answer.isFull = false := by decide +kernel
  have hsize : ∀ state ∈ states [] interleaved, ∀ tree ∈ state, tree.isOverlong = false := by
    decide +kernel
  have hreads : ∃ tree ∈ after [] interleaved,
      Answer.ofResult .bytes (tree.bytesAt [1]).1 = .bytes [64, 1, 5, 64, 1, 2, 7, 7] ∧
        Answer.ofResult .bytes (tree.bytesAt [1, 0]).1 = .bytes [64, 1, 2, 7, 7] := by
    decide +kernel
  obtain ⟨tree, htree, harray, helement⟩ := hreads
  have hraw := Answer.ofResult_eq_bytes harray
  obtain ⟨setting, hbase, hsteady⟩ := Setting.exists_base
  have h := Setting.furnished_of_base hbase hsteady
  obtain ⟨hvalue, -, hcount⟩ := (element_reads_agree h interleaved hfull hsize htree [1] hraw
    List.mem_cons_self 0).1 [[64, 1, 2, 7, 7]] rfl
  exact ⟨hfull, hsize, setting, h, tree, htree, hraw,
    (hvalue _).mpr (Answer.ofResult_eq_bytes helement), hcount⟩

end Session
end ByteFormula
