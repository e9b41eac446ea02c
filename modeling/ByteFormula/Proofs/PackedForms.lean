import ByteFormula.Proofs.Packing

/-! The forms of a list compared. Packing and unpacking are inverse to each other up to the class of
the length fields: no form is the beginning of another, and the one that is packed is the shortest. -/
namespace ByteFormula

theorem Bytes.ofNat_toNat (bytes : Bytes) : ofNat bytes.length bytes.toNat = bytes := by
  -- The last byte is the low digit, so the induction takes bytes off the end.
  induction hlength : bytes.length generalizing bytes with
  | zero => rw [List.length_eq_zero_iff.mp hlength, ofNat]
  | succ length ih =>
    rcases List.eq_nil_or_concat bytes with rfl | ⟨front, byte, rfl⟩
    · cases hlength
    rw [List.concat_eq_append] at hlength ⊢
    have hbyte := byte.toNat_lt
    have hfront : front.length = length := by simpa using hlength
    have hquot : (256 * toNat front + byte.toNat) / 256 = toNat front := by omega
    have hrem : (256 * toNat front + byte.toNat) % 256 = byte.toNat := by omega
    rw [toNat_concat, ofNat, hquot, hrem, ih front hfront, UInt8.ofNat_toNat]

/-- A byte string is known from its length and the number that it spells. -/
theorem Bytes.eq_of_toNat {left right : Bytes} (hlength : left.length = right.length)
    (hvalue : left.toNat = right.toNat) : left = right := by
  rw [← ofNat_toNat left, ← ofNat_toNat right, hlength, hvalue]

namespace LengthClass

/-- The fields of the class can spell the length, and those of no narrower class can. -/
def Narrowest (c : LengthClass) (length : Nat) : Prop :=
  length < Bytes.capacity c.width ∧
    ∀ other : LengthClass, length < Bytes.capacity other.width → c.width ≤ other.width

private theorem width_inj {c other : LengthClass} (h : c.width = other.width) : c = other := by
  revert h
  cases c <;> cases other <;> decide

theorem Narrowest.eq {c other : LengthClass} {length : Nat} (h : c.Narrowest length)
    (hother : other.Narrowest length) : c = other :=
  width_inj (Nat.le_antisymm (h.2 other hother.1) (hother.2 c h.1))

private theorem narrowest_of_forLength {length : Nat} {c : LengthClass}
    (h : forLength length = .ok c) : c.Narrowest length := by
  refine ⟨lt_of_forLength h, fun other hother => ?_⟩
  rcases forLength_ok h with ⟨rfl, hlength⟩ | ⟨rfl, hlength⟩ | ⟨rfl, hlength⟩ | ⟨rfl, hlength⟩ <;>
    cases other <;> simp only [width, Bytes.capacity] at hother ⊢ <;> omega

end LengthClass

namespace Packing

/-- A run is known from its width and its elements. -/
theorem Run.eq {width : Nat} {elements : List Bytes} {left right : Bytes}
    (hleft : Run width elements left) (hright : Run width elements right) : left = right := by
  induction hleft generalizing right with
  | nil =>
    cases hright
    rfl
  | cons hwidth hfield _ ih =>
    cases hright with
    | cons hwidth' hfield' hrest' =>
      rw [Bytes.eq_of_toNat (hwidth.trans hwidth'.symm) (hfield.trans hfield'.symm), ih hrest']

theorem Run.length_le {width wider : Nat} {elements : List Bytes} {left right : Bytes}
    (hleft : Run width elements left) (hright : Run wider elements right) (h : width ≤ wider) :
    left.length ≤ right.length := by
  induction hleft generalizing right with
  | nil => exact Nat.zero_le _
  | cons hwidth _ _ ih =>
    cases hright with
    | cons hwidth' _ hrest' =>
      have hrest := ih hrest'
      simp only [List.length_append]
      omega

/-- A list has at most one form of each class. -/
theorem Form.eq {c : LengthClass} {elements : List Bytes} {left right : Bytes}
    (hleft : Form c elements left) (hright : Form c elements right) : left = right := by
  obtain ⟨hwidth, hword, -, hbody⟩ := hleft
  obtain ⟨hwidth', hword', -, hbody'⟩ := hright
  rw [Bytes.eq_of_toNat (hwidth.trans hwidth'.symm) (hword.trans hword'.symm), hbody.eq hbody']

theorem Form.length_le {c wider : LengthClass} {elements : List Bytes} {left right : Bytes}
    (hleft : Form c elements left) (hright : Form wider elements right) (h : c.width ≤ wider.width) :
    left.length ≤ right.length := by
  obtain ⟨hwidth, -, -, hbody⟩ := hleft
  obtain ⟨hwidth', -, -, hbody'⟩ := hright
  have hbodies := hbody.length_le hbody' h
  simp only [List.length_append]
  omega

/-- The class of a form can be read off it. -/
theorem Form.class_eq {c other : LengthClass} {elements elements' : List Bytes} {raw : Bytes}
    (h : Form c elements raw) (hother : Form other elements' raw) : c = other := by
  obtain @⟨word, body, hwidth, hword, hcount, -⟩ := h
  generalize hraw : word ++ body = raw at hother
  obtain @⟨word', body', hwidth', hword', hcount', -⟩ := hother
  obtain ⟨rfl, -⟩ := List.append_inj hraw (hwidth.trans hwidth'.symm)
  have hclass := (read_word hwidth hword hcount []).2.2
  have hclass' := (read_word hwidth' hword' hcount' []).2.2
  exact hclass.symm.trans hclass'

private theorem Run.readElements_take {width offset cut : Nat} {elements : List Bytes}
    {bytes : Bytes} (h : Run width elements bytes) (hcut : cut < bytes.length) :
    ∃ position missing, readElements width elements.length offset (bytes.take cut) =
      .error (.truncated position missing) := by
  cases hread : readElements width elements.length offset (bytes.take cut) with
  | error e =>
    obtain ⟨position, missing, rfl⟩ := readElements_error hread
    exact ⟨position, missing, rfl⟩
  | ok result =>
    obtain ⟨others, rest⟩ := result
    obtain ⟨hcount, front, hfront, hrun⟩ := readElements_eq_ok_iff.mp hread
    -- What reads the cut run reads the whole one too, and leaves what was cut off.
    have hpart : readElements width elements.length offset bytes =
        .ok (others, rest ++ bytes.drop cut) := by
      refine readElements_eq_ok_iff.mpr ⟨hcount, front, ?_, hrun⟩
      rw [← List.append_assoc, ← hfront, List.take_append_drop]
    have hwhole : readElements width elements.length offset bytes = .ok (elements, []) :=
      readElements_eq_ok_iff.mpr ⟨rfl, bytes, (List.append_nil bytes).symm, h⟩
    rw [hpart] at hwhole
    have hnone : rest ++ bytes.drop cut = [] := congrArg Prod.snd (Except.ok.inj hwhole)
    have hdrop := congrArg List.length (List.append_eq_nil_iff.mp hnone).2
    simp only [List.length_drop, List.length_nil] at hdrop
    omega

/-- A form that is cut anywhere is refused as truncated. -/
theorem Form.unpack_take {c : LengthClass} {elements : List Bytes} {raw : Bytes} {limit cut : Nat}
    (h : Form c elements raw) (hlimit : elements.length ≤ limit) (hcut : cut < raw.length) :
    ∃ offset missing, unpack limit (raw.take cut) = .error (.truncated offset missing) := by
  obtain @⟨word, body, hwidth, hword, hcount, hbody⟩ := h
  rw [List.length_append] at hcut
  by_cases hshort : cut < 2
  · have hsplit : split 0 2 ((word ++ body).take cut) = .error (.truncated 0 (2 - cut)) := by
      have hlength : (((word ++ body).take cut).take 2).length = cut := by
        simp only [List.length_take, List.length_append]
        omega
      simp only [split, hlength, if_pos hshort]
    exact ⟨0, 2 - cut, by simp only [unpack, hsplit]⟩
  · have htake : (word ++ body).take cut = word ++ body.take (cut - 2) := by
      rw [List.take_append, List.take_of_length_le (by omega), hwidth]
    obtain ⟨hsplit, hmod, hclass⟩ := read_word hwidth hword hcount (body.take (cut - 2))
    obtain ⟨position, missing, hread⟩ : ∃ position missing,
        readElements c.width elements.length 2 (body.take (cut - 2)) =
          .error (.truncated position missing) := hbody.readElements_take (by omega)
    refine ⟨position, missing, ?_⟩
    rw [htake]
    simp only [unpack, hsplit, hmod, hclass, hread, if_neg (Nat.not_lt.mpr hlimit)]

/-- Whatever form a list has, it can be packed, and what is packed is the form of the narrowest class,
which is the shortest. -/
theorem Form.pack_shortest {c : LengthClass} {elements : List Bytes} {raw : Bytes}
    (h : Form c elements raw) :
    ∃ packed, pack elements = .ok packed ∧ packed.length ≤ raw.length ∧
      (packed = raw ↔ c.Narrowest (longest elements)) := by
  have hfits : longest elements < Bytes.capacity c.width := by
    obtain ⟨-, -, -, hbody⟩ := h
    exact longest_lt (by cases c <;> decide) hbody.length_lt
  have hcount : elements.length ≤ maxElements := by
    obtain ⟨-, -, hcount, -⟩ := h
    exact hcount
  obtain ⟨packed, hpack⟩ := (pack_ok_iff elements).mpr ⟨hcount, h.length_lt⟩
  obtain ⟨narrow, hnarrow, hform⟩ := form_of_pack hpack
  have hnarrowest := LengthClass.narrowest_of_forLength hnarrow
  refine ⟨packed, hpack, hform.length_le h (hnarrowest.2 c hfits), ?_, ?_⟩
  · rintro rfl
    rw [h.class_eq hform]
    exact hnarrowest
  · intro hc
    rw [hc.eq hnarrowest] at h
    exact hform.eq h

/-- Packing takes the lists that the format has room for, and unpacking gives them back under every
limit that allows as many elements. -/
theorem unpack_after_pack (elements : List Bytes) :
    ((∃ raw, pack elements = .ok raw) ↔
      elements.length ≤ 16383 ∧ ∀ element ∈ elements, element.length ≤ 0xffffffff) ∧
    ∀ raw, pack elements = .ok raw → ∀ limit,
      unpack limit raw =
        if elements.length ≤ limit then .ok elements else .error (.tooManyElements limit) := by
  constructor
  · rw [pack_ok_iff]
    have hcapacity : Bytes.capacity 4 = 0x100000000 := rfl
    simp only [maxElements, hcapacity, Nat.lt_succ_iff]
  · intro raw hpack limit
    obtain ⟨c, -, hform⟩ := form_of_pack hpack
    have hread : unpack limit (raw ++ []) = _ := unpack_form hform []
    rw [List.append_nil, if_pos rfl] at hread
    rw [hread]
    by_cases hlimit : elements.length ≤ limit
    · rw [if_pos hlimit, if_neg (Nat.not_lt.mpr hlimit)]
    · rw [if_neg hlimit, if_pos (Nat.lt_of_not_le hlimit)]

/-- Unpacking accepts the forms of a list and nothing else. A form with bytes missing or bytes to
spare is refused as such, and packing what was unpacked gives the shortest form. -/
theorem unpack_eq_ok_iff_form (limit : Nat) (raw : Bytes) (elements : List Bytes) :
    (unpack limit raw = .ok elements ↔ elements.length ≤ limit ∧ ∃ c, Form c elements raw) ∧
    ∀ c, unpack limit raw = .ok elements → Form c elements raw →
      (∀ cut < raw.length, ∃ offset missing,
        unpack limit (raw.take cut) = .error (.truncated offset missing)) ∧
      (∀ extra ≠ [], unpack limit (raw ++ extra) = .error (.trailingBytes extra.length)) ∧
      ∃ packed, pack elements = .ok packed ∧ packed.length ≤ raw.length ∧
        unpack limit packed = .ok elements ∧ (packed = raw ↔ c.Narrowest (longest elements)) := by
  refine ⟨unpack_eq_ok_iff, fun c hunpack hform => ⟨?_, ?_, ?_⟩⟩
  · intro cut hcut
    exact hform.unpack_take (length_unpack hunpack) hcut
  · intro extra hextra
    rw [unpack_form hform, if_neg (Nat.not_lt.mpr (length_unpack hunpack)), if_neg hextra]
  · obtain ⟨packed, hpack, hlength, hnarrowest⟩ := hform.pack_shortest
    exact ⟨packed, hpack, hlength, unpack_pack hpack (length_unpack hunpack), hnarrowest⟩

/-- One empty element has a form with a length field and a shorter one without. -/
example : unpack 1 [0x40, 0x01, 0x00] = .ok [[]] ∧ pack [[]] = .ok [0x00, 0x01] := ⟨rfl, rfl⟩

end Packing
end ByteFormula
