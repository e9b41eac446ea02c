import ByteFormula.Data.Packing

/-! The packed format. A list has one form for each class of length fields that holds its elements;
unpacking accepts these forms and nothing else, and packing writes one of them. -/
namespace ByteFormula

namespace Bytes

@[simp] theorem length_ofNat (width value : Nat) : (ofNat width value).length = width := by
  induction width generalizing value with
  | zero => rfl
  | succ width ih => simp [ofNat, ih]

@[simp] theorem toNat_nil : toNat [] = 0 := rfl

theorem toNat_concat (bytes : Bytes) (byte : UInt8) :
    toNat (bytes ++ [byte]) = 256 * toNat bytes + byte.toNat := by
  simp [toNat, List.foldl_append]

theorem toNat_lt_capacity (bytes : Bytes) : toNat bytes < capacity bytes.length := by
  have hfold (bytes : Bytes) (start : Nat) :
      bytes.foldl (fun value byte => 256 * value + byte.toNat) start <
        (start + 1) * capacity bytes.length := by
    induction bytes generalizing start with
    | nil => simp [capacity]
    | cons byte rest ih =>
      have hbyte := byte.toNat_lt
      calc (byte :: rest).foldl (fun value byte => 256 * value + byte.toNat) start
        _ < (256 * start + byte.toNat + 1) * capacity rest.length := ih _
        _ ≤ ((start + 1) * 256) * capacity rest.length := Nat.mul_le_mul_right _ (by omega)
        _ = (start + 1) * capacity (byte :: rest).length := Nat.mul_assoc _ _ _
  simpa [toNat] using hfold bytes 0

/-- A number that fits the width is read back from its bytes. -/
theorem toNat_ofNat (width value : Nat) (h : value < capacity width) :
    toNat (ofNat width value) = value := by
  induction width generalizing value with
  | zero => simp_all [ofNat, capacity]
  | succ width ih =>
    have hquot : value / 256 < capacity width := by
      rw [capacity] at h
      omega
    rw [ofNat, toNat_concat, ih _ hquot, UInt8.toNat_ofNat', Nat.mod_mod_of_dvd _ (by decide)]
    omega

end Bytes

namespace LengthClass

@[simp] theorem ofTag_tag (c : LengthClass) : ofTag c.tag = c := by
  cases c <;> rfl

private theorem tag_ofTag {tag : Nat} (h : tag < 4) : (ofTag tag).tag = tag := by
  match tag, h with
  | 0, _ => rfl
  | 1, _ => rfl
  | 2, _ => rfl
  | 3, _ => rfl

private theorem tag_lt (c : LengthClass) : c.tag < 4 := by
  cases c <;> decide

/-- A class is found exactly for the lengths that four bytes can spell. -/
theorem forLength_ok_iff (length : Nat) : (∃ c, forLength length = .ok c) ↔ length < Bytes.capacity 4 := by
  have hone : Bytes.capacity 1 = 0x100 := rfl
  have htwo : Bytes.capacity 2 = 0x10000 := rfl
  have hfour : Bytes.capacity 4 = 0x100000000 := rfl
  unfold forLength
  split
  · exact ⟨fun _ => by omega, fun _ => ⟨_, rfl⟩⟩
  split
  · exact ⟨fun _ => by omega, fun _ => ⟨_, rfl⟩⟩
  split
  · exact ⟨fun _ => by omega, fun _ => ⟨_, rfl⟩⟩
  split
  · simp_all
  · simp_all

theorem forLength_error {length : Nat} {e : DataError} (h : forLength length = .error e) :
    e = .elementTooLong length := by
  unfold forLength at h
  grind

theorem forLength_overlong {length : Nat} (h : Bytes.capacity 4 ≤ length) :
    forLength length = .error (.elementTooLong length) := by
  cases hclass : forLength length with
  | ok c => exact absurd ((forLength_ok_iff _).mp ⟨c, hclass⟩) (Nat.not_lt.mpr h)
  | error e => rw [forLength_error hclass]

/-- The lengths for which each class is chosen. -/
theorem forLength_ok {length : Nat} {c : LengthClass} (h : forLength length = .ok c) :
    (c = .zero ∧ length = 0) ∨ (c = .one ∧ 0 < length ∧ length < 0x100) ∨
      (c = .two ∧ 0x100 ≤ length ∧ length < 0x10000) ∨
      (c = .four ∧ 0x10000 ≤ length ∧ length < 0x100000000) := by
  have hone : Bytes.capacity 1 = 0x100 := rfl
  have htwo : Bytes.capacity 2 = 0x10000 := rfl
  have hfour : Bytes.capacity 4 = 0x100000000 := rfl
  simp only [forLength, hone, htwo, hfour] at h
  split at h
  · cases h
    exact .inl ⟨rfl, ‹_›⟩
  split at h
  · cases h
    exact .inr (.inl ⟨rfl, by omega, by omega⟩)
  split at h
  · cases h
    exact .inr (.inr (.inl ⟨rfl, by omega, by omega⟩))
  split at h
  · cases h
    exact .inr (.inr (.inr ⟨rfl, by omega, by omega⟩))
  · cases h

/-- The length fields of the class for a length can spell that length. -/
theorem lt_of_forLength {length : Nat} {c : LengthClass} (h : forLength length = .ok c) :
    length < Bytes.capacity c.width := by
  rcases forLength_ok h with ⟨rfl, hlength⟩ | ⟨rfl, hlength⟩ | ⟨rfl, hlength⟩ | ⟨rfl, hlength⟩ <;>
    simp only [width, Bytes.capacity] <;> omega

end LengthClass

namespace Packing

private theorem le_foldl_longest (elements : List Bytes) (start : Nat) :
    start ≤ elements.foldl (fun length element => max length element.length) start ∧
      ∀ element ∈ elements, element.length ≤
        elements.foldl (fun length element => max length element.length) start := by
  induction elements generalizing start with
  | nil => simp
  | cons first rest ih =>
    obtain ⟨hstart, hrest⟩ := ih (max start first.length)
    refine ⟨by rw [List.foldl_cons]; omega, ?_⟩
    intro element hmem
    rw [List.foldl_cons]
    rcases List.mem_cons.mp hmem with rfl | hmem
    · omega
    · exact hrest element hmem

private theorem length_le_longest {elements : List Bytes} {element : Bytes}
    (h : element ∈ elements) : element.length ≤ longest elements :=
  (le_foldl_longest elements 0).2 element h

private theorem foldl_longest_lt (elements : List Bytes) (start bound : Nat) (hs : start < bound)
    (h : ∀ element ∈ elements, element.length < bound) :
    elements.foldl (fun length element => max length element.length) start < bound := by
  induction elements generalizing start with
  | nil => exact hs
  | cons first rest ih =>
    have hfirst := h first (by simp)
    exact ih (max start first.length) (by omega) fun element hmem => h element (by simp [hmem])

theorem longest_lt {elements : List Bytes} {bound : Nat} (hb : 0 < bound)
    (h : ∀ element ∈ elements, element.length < bound) : longest elements < bound :=
  foldl_longest_lt elements 0 bound hb h

/-- Packing succeeds exactly on lists within the two limits of the format. -/
theorem pack_ok_iff (elements : List Bytes) :
    (∃ raw, pack elements = .ok raw) ↔
      elements.length ≤ maxElements ∧ ∀ element ∈ elements, element.length < Bytes.capacity 4 := by
  unfold pack
  split
  · rename_i hmany
    simp only [reduceCtorEq, exists_false, false_iff]
    exact fun hfits => absurd hfits.1 (by omega)
  · rename_i hcount
    constructor
    · rintro ⟨raw, hraw⟩
      refine ⟨by omega, fun element hmem => ?_⟩
      split at hraw
      · cases hraw
      · have hlongest := (LengthClass.forLength_ok_iff _).mp ⟨_, ‹_›⟩
        have := length_le_longest hmem
        omega
    · rintro ⟨_, hshort⟩
      obtain ⟨c, hc⟩ := (LengthClass.forLength_ok_iff _).mpr (longest_lt (by decide) hshort)
      exact ⟨_, by rw [hc]⟩

/-- Elements one after the other, each behind a field of the given width that spells its length. -/
inductive Run (width : Nat) : List Bytes → Bytes → Prop where
  | nil : Run width [] []
  | cons {field element bytes : Bytes} {elements : List Bytes} (hwidth : field.length = width)
      (hfield : field.toNat = element.length) (hrest : Run width elements bytes) :
      Run width (element :: elements) (field ++ (element ++ bytes))

/-- A packed form of a list with length fields of the given class: a word of two bytes, of which two
bits are the class and fourteen the number of elements, and then the elements. -/
inductive Form (c : LengthClass) (elements : List Bytes) : Bytes → Prop where
  | mk {word body : Bytes} (hwidth : word.length = 2)
      (hword : word.toNat = c.tag * 0x4000 + elements.length)
      (hcount : elements.length ≤ maxElements) (hbody : Run c.width elements body) :
      Form c elements (word ++ body)

/-- A length field of some width only spells lengths that the width has room for. -/
theorem Run.length_lt {width : Nat} {elements : List Bytes} {bytes : Bytes}
    (h : Run width elements bytes) : ∀ element ∈ elements, element.length < Bytes.capacity width := by
  induction h with
  | nil => simp
  | cons hwidth hfield _ ih =>
    intro element hmem
    rcases List.mem_cons.mp hmem with rfl | hmem
    · rw [← hfield, ← hwidth]
      exact Bytes.toNat_lt_capacity _
    · exact ih element hmem

/-- What is written for elements that fit the width is a run of them. -/
theorem run_flatMap {width : Nat} {elements : List Bytes}
    (h : ∀ element ∈ elements, element.length < Bytes.capacity width) :
    Run width elements (elements.flatMap (packElement width)) := by
  induction elements with
  | nil => exact .nil
  | cons first others ih =>
    have hfield : (Bytes.ofNat width first.length).toNat = first.length :=
      Bytes.toNat_ofNat _ _ (h first (by simp))
    have hothers := ih fun element hmem => h element (by simp [hmem])
    rw [List.flatMap_cons, packElement, List.append_assoc]
    exact .cons (Bytes.length_ofNat _ _) hfield hothers

/-- Packing writes the form whose class is the one for the longest element. -/
theorem form_of_pack {elements : List Bytes} {raw : Bytes} (h : pack elements = .ok raw) :
    ∃ c, LengthClass.forLength (longest elements) = .ok c ∧ Form c elements raw := by
  unfold pack at h
  split at h
  · cases h
  rename_i hcount
  split at h
  · cases h
  rename_i c hc
  cases h
  have htag := c.tag_lt
  have hfit : ∀ element ∈ elements, element.length < Bytes.capacity c.width := fun element hmem =>
    Nat.lt_of_le_of_lt (length_le_longest hmem) (LengthClass.lt_of_forLength hc)
  have hword : (Bytes.ofNat 2 (c.tag * 0x4000 + elements.length)).toNat =
      c.tag * 0x4000 + elements.length := by
    simp only [maxElements] at hcount
    apply Bytes.toNat_ofNat
    simp only [Bytes.capacity]
    omega
  exact ⟨c, hc, .mk (Bytes.length_ofNat _ _) hword (Nat.le_of_not_lt hcount) (run_flatMap hfit)⟩

private theorem split_eq_ok_iff {offset count : Nat} {bytes front rest : Bytes} :
    split offset count bytes = .ok (front, rest) ↔ bytes = front ++ rest ∧ front.length = count := by
  simp only [split]
  constructor
  · intro h
    split at h
    · cases h
    · cases h
      have := List.length_take_le count bytes
      exact ⟨(List.take_append_drop count bytes).symm, by omega⟩
  · rintro ⟨rfl, rfl⟩
    simp

/-- A counted reader returns exactly the elements of which there is a run, and what follows it. -/
theorem readElements_eq_ok_iff {width count offset : Nat} {bytes rest : Bytes}
    {elements : List Bytes} :
    readElements width count offset bytes = .ok (elements, rest) ↔
      elements.length = count ∧ ∃ front, bytes = front ++ rest ∧ Run width elements front := by
  constructor
  · intro h
    induction count generalizing offset bytes elements with
    | zero =>
      cases h
      exact ⟨rfl, [], rfl, .nil⟩
    | succ count ih =>
      simp only [readElements] at h
      split at h
      · cases h
      rename_i field afterField hfield
      split at h
      · cases h
      rename_i element afterElement helement
      split at h
      · cases h
      rename_i others rest' hothers
      cases h
      obtain ⟨rfl, hwidth⟩ := split_eq_ok_iff.mp hfield
      obtain ⟨rfl, hlength⟩ := split_eq_ok_iff.mp helement
      obtain ⟨rfl, front, rfl, hrun⟩ := ih hothers
      refine ⟨rfl, field ++ (element ++ front), ?_, .cons hwidth hlength.symm hrun⟩
      simp only [List.append_assoc]
  · rintro ⟨rfl, front, rfl, hrun⟩
    induction hrun generalizing offset with
    | nil => rfl
    | @cons field element bytes elements hwidth hfield _ ih =>
      have hsplit : split offset width (field ++ (element ++ (bytes ++ rest))) =
          .ok (field, element ++ (bytes ++ rest)) := split_eq_ok_iff.mpr ⟨rfl, hwidth⟩
      have hsplit' : split (offset + width) field.toNat (element ++ (bytes ++ rest)) =
          .ok (element, bytes ++ rest) := split_eq_ok_iff.mpr ⟨rfl, hfield.symm⟩
      simp only [List.length_cons, readElements, List.append_assoc, hsplit, hsplit', ih]

/-- The word of a form is split off, and gives back the class and the number of elements. -/
theorem read_word {c : LengthClass} {word : Bytes} {count : Nat} (hwidth : word.length = 2)
    (hword : word.toNat = c.tag * 0x4000 + count) (hcount : count ≤ maxElements) (body : Bytes) :
    split 0 2 (word ++ body) = .ok (word, body) ∧ word.toNat % 0x4000 = count ∧
      LengthClass.ofTag (word.toNat / 0x4000) = c := by
  simp only [maxElements] at hcount
  have hdiv : word.toNat / 0x4000 = c.tag := by omega
  exact ⟨split_eq_ok_iff.mpr ⟨rfl, hwidth⟩, by omega, by rw [hdiv, LengthClass.ofTag_tag]⟩

/-- A form is unpacked to its elements, if as many are allowed, and nothing may follow it. -/
theorem unpack_form {limit : Nat} {c : LengthClass} {elements : List Bytes} {raw : Bytes}
    (h : Form c elements raw) (extra : Bytes) :
    unpack limit (raw ++ extra) =
      if limit < elements.length then .error (.tooManyElements limit)
      else if extra = [] then .ok elements else .error (.trailingBytes extra.length) := by
  obtain @⟨word, body, hwidth, hword, hcount, hbody⟩ := h
  obtain ⟨hsplit, hmod, hclass⟩ := read_word hwidth hword hcount (body ++ extra)
  have hread : readElements c.width elements.length 2 (body ++ extra) = .ok (elements, extra) :=
    readElements_eq_ok_iff.mpr ⟨rfl, body, rfl, hbody⟩
  rw [List.append_assoc]
  simp only [unpack, hsplit, hmod, hclass, hread]

theorem unpack_eq_ok_iff {limit : Nat} {raw : Bytes} {elements : List Bytes} :
    unpack limit raw = .ok elements ↔ elements.length ≤ limit ∧ ∃ c, Form c elements raw := by
  constructor
  · intro h
    unfold unpack at h
    split at h
    · cases h
    rename_i word body hsplit
    obtain ⟨rfl, hwidth⟩ := split_eq_ok_iff.mp hsplit
    simp only at h
    split at h
    · cases h
    split at h
    · cases h
    rename_i others rest hread
    split at h
    · cases h
      subst_vars
      obtain ⟨hcount, front, hbody, hrun⟩ := readElements_eq_ok_iff.mp hread
      rw [List.append_nil] at hbody
      subst hbody
      refine ⟨by omega, _, .mk hwidth ?_ (by simp only [maxElements]; omega) hrun⟩
      have hcapacity := word.toNat_lt_capacity
      simp only [hwidth, Bytes.capacity] at hcapacity
      rw [LengthClass.tag_ofTag (by omega)]
      omega
    · cases h
  · rintro ⟨hlimit, c, hform⟩
    have hread : unpack limit (raw ++ []) = _ := unpack_form hform []
    rwa [List.append_nil, if_neg (by omega), if_pos rfl] at hread

/-- What `pack` has written is unpacked to the same elements, if as many are allowed. -/
theorem unpack_pack {elements : List Bytes} {raw : Bytes} {limit : Nat}
    (h : pack elements = .ok raw) (hlimit : elements.length ≤ limit) :
    unpack limit raw = .ok elements := by
  obtain ⟨c, -, hform⟩ := form_of_pack h
  exact unpack_eq_ok_iff.mpr ⟨hlimit, c, hform⟩

theorem length_unpack {limit : Nat} {raw : Bytes} {elements : List Bytes}
    (h : unpack limit raw = .ok elements) : elements.length ≤ limit :=
  (unpack_eq_ok_iff.mp h).1

/-- The elements of a form are short enough to be packed again. -/
theorem Form.length_lt {c : LengthClass} {elements : List Bytes} {raw : Bytes}
    (h : Form c elements raw) : ∀ element ∈ elements, element.length < Bytes.capacity 4 := by
  obtain ⟨-, -, -, hrun⟩ := h
  have hwidth : Bytes.capacity c.width ≤ Bytes.capacity 4 := by cases c <;> decide
  intro element hmem
  exact Nat.lt_of_lt_of_le (hrun.length_lt element hmem) hwidth

theorem length_lt_of_unpack {limit : Nat} {raw element : Bytes} {elements : List Bytes}
    (h : unpack limit raw = .ok elements) (hmem : element ∈ elements) :
    element.length < Bytes.capacity 4 := by
  obtain ⟨-, c, hform⟩ := unpack_eq_ok_iff.mp h
  exact hform.length_lt element hmem

private theorem split_error {offset count : Nat} {bytes : Bytes} {e : DataError}
    (h : split offset count bytes = .error e) :
    ∃ position missing, e = .truncated position missing := by
  simp only [split] at h
  split at h
  · cases h
    exact ⟨_, _, rfl⟩
  · cases h

theorem readElements_error {width count offset : Nat} {bytes : Bytes} {e : DataError}
    (h : readElements width count offset bytes = .error e) :
    ∃ position missing, e = .truncated position missing := by
  induction count generalizing offset bytes with
  | zero => cases h
  | succ count ih =>
    simp only [readElements] at h
    split at h
    · cases h
      exact split_error ‹_›
    split at h
    · cases h
      exact split_error ‹_›
    split at h
    · cases h
      exact ih ‹_›
    · cases h

/-- Unpacking fails for one of three reasons. -/
theorem unpack_error {limit : Nat} {raw : Bytes} {e : DataError} (h : unpack limit raw = .error e) :
    (∃ position missing, e = .truncated position missing) ∨ e = .tooManyElements limit ∨
      ∃ count, e = .trailingBytes count := by
  unfold unpack at h
  split at h
  · cases h
    exact .inl (split_error ‹_›)
  simp only at h
  split at h
  · cases h
    exact .inr (.inl rfl)
  split at h
  · cases h
    exact .inl (readElements_error ‹_›)
  split at h
  · cases h
  · cases h
    exact .inr (.inr ⟨_, rfl⟩)

end Packing
end ByteFormula
