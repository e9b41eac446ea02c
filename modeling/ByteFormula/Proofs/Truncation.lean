import ByteFormula.Proofs.RoundTrip

/-! Bytecode that is cut short or followed by more. What is accepted tells by itself where it ends: of a
part of it, the end is reported as missing at the very place of the cut, and what follows it is
reported as too much. -/
namespace ByteFormula

/-- A head that is cut short lacks its first byte or its second. -/
theorem Head.read_take {head : Head} (hfits : head.Fits) {k : Nat} (hk : k < head.width) :
    (k = 0 ∧ read (head.layout.take k) = .error .empty) ∨
      (k = 1 ∧ read (head.layout.take k) = .error (.unexpectedEnd 1)) := by
  obtain rfl | hpos : k = 0 ∨ 0 < k := Nat.eq_zero_or_pos k
  · exact .inl ⟨rfl, rfl⟩
  cases head with
  | data length => exact absurd hk (by simp only [width]; omega)
  | short code => exact absurd hk (by simp only [width]; omega)
  | long code arity =>
    obtain rfl : k = 1 := by
      simp only [width] at hk
      omega
    obtain ⟨hcode, harity⟩ := hfits
    unfold maxCallArguments at harity
    have hfirst : (UInt8.ofNat (64 + 4 * arity + code / 256)).toNat = 64 + 4 * arity + code / 256 := by
      rw [UInt8.toNat_ofNat']
      omega
    refine .inr ⟨rfl, ?_⟩
    simp only [layout, List.take_succ_cons, List.take_zero, read, hfirst]
    rw [if_neg (by omega), if_neg (by omega)]

namespace Registry

variable {σ : Type} {registry : Registry σ} {arity : Option Nat}

/-- A cut falls into the front part or behind it. -/
theorem take_append_cases {front back : Bytes} {k : Nat} (hk : k < (front ++ back).length) :
    (k < front.length ∧ (front ++ back).take k = front.take k) ∨
      ∃ j, k = front.length + j ∧ j < back.length ∧ (front ++ back).take k = front ++ back.take j := by
  rw [List.length_append] at hk
  by_cases hfront : k < front.length
  · exact .inl ⟨hfront, List.take_append_of_le_length (Nat.le_of_lt hfront)⟩
  · obtain ⟨j, rfl⟩ : ∃ j, k = front.length + j := ⟨k - front.length, by omega⟩
    exact .inr ⟨j, rfl, by omega, List.take_length_add_append j⟩

private theorem read_cut_head {head : Head} (hfits : head.Fits) {room k : Nat} (hk : k < head.width)
    (offset : Nat) :
    registry.read arity room offset (head.layout.take k) = .error (.unexpectedEnd (offset + k)) := by
  rcases Head.read_take hfits hk with ⟨rfl, hread⟩ | ⟨rfl, hread⟩
  · rw [read, hread]
    rfl
  · rw [read, hread]

private theorem read_cut_data {bytes : Bytes} (hfits : (Head.data bytes.length).Fits) {room j : Nat}
    (hj : j < bytes.length) (offset : Nat) :
    registry.read arity room offset ((Head.data bytes.length).layout ++ bytes.take j) =
      .error (.unexpectedEnd (offset + ((Head.data bytes.length).layout.length + j))) := by
  have hlength : (bytes.take j).length = j := by
    rw [List.length_take]
    omega
  have hshort : ((bytes.take j).take bytes.length).length < bytes.length := by
    rw [List.length_take, hlength]
    omega
  rw [read, Head.read_layout hfits]
  simp only [opening, drop_layout, if_pos hshort, List.length_append, hlength]

mutual
/-- Wherever the spelling of a formula is cut, its end is missed there. -/
theorem read_cut (hnumbered : Numbered registry) {room widened k : Nat} {code : Bytes}
    (formula : Formula) (h : registry.Readable arity room formula code widened)
    (hk : k < code.length) (offset : Nat) :
    registry.read arity room offset (code.take k) = .error (.unexpectedEnd (offset + k)) := by
  obtain ⟨hwell, hspells, hwithin, hdepth⟩ := h
  cases formula with
  | data bytes =>
    cases hspells
    have hfits : (Head.data bytes.length).Fits := hwell
    rcases take_append_cases hk with ⟨hhead, htake⟩ | ⟨j, rfl, hj, htake⟩
    · rw [htake]
      exact read_cut_head hfits (Head.length_layout _ ▸ hhead) offset
    · rw [htake]
      exact read_cut_data hfits hj offset
  | argument index =>
    cases hspells
    have hfits : (Head.short index).Fits := Nat.lt_trans hwell (by decide)
    exact read_cut_head hfits (Head.length_layout _ ▸ hk) offset
  | call index args =>
    obtain ⟨head, back, n, hfits, hopens, rfl, hargs⟩ := hspells.head hnumbered hwell
    have hopening : registry.opening arity head = .ok (.call index args.length) :=
      opening_of_opens hnumbered hopens trivial
    rcases take_append_cases hk with ⟨hhead, htake⟩ | ⟨j, rfl, hj, htake⟩
    · rw [htake]
      exact read_cut_head hfits (Head.length_layout _ ▸ hhead) offset
    · -- The head is whole, so the cut is in the arguments, which lie one call deeper.
      simp only [Formula.depth] at hdepth
      obtain ⟨room, rfl⟩ : ∃ r, room = r + 1 := ⟨room - 1, by omega⟩
      have hreadable : registry.ReadableAll arity room args back n :=
        ⟨hwell.2, hargs, hwithin, by omega⟩
      have hcut := readMany_cut hnumbered args hreadable hj (offset + head.width)
      rw [htake, read_call_error hfits hopening hcut, Head.length_layout, Nat.add_assoc]

theorem readMany_cut (hnumbered : Numbered registry) {room widened k : Nat} {code : Bytes}
    (formulas : List Formula) (h : registry.ReadableAll arity room formulas code widened)
    (hk : k < code.length) (offset : Nat) :
    readMany (registry.read arity room) formulas.length offset (code.take k) =
      .error (.unexpectedEnd (offset + k)) := by
  obtain ⟨hwell, hspells, hwithin, hdepth⟩ := h
  cases formulas with
  | nil =>
    cases hspells
    exact absurd hk (Nat.not_lt_zero k)
  | cons arg formulas =>
    cases hspells with
    | @cons _ _ front back m n harg hrest =>
      simp only [Formula.numArgsAll, Formula.depthAll, Nat.max_le] at hwithin hdepth
      have hfirst : registry.Readable arity room arg front m :=
        ⟨hwell.1, harg, fun count hcount => (hwithin count hcount).1, hdepth.1⟩
      have hothers : registry.ReadableAll arity room formulas back n :=
        ⟨hwell.2, hrest, fun count hcount => (hwithin count hcount).2, hdepth.2⟩
      rw [List.length_cons, readMany]
      rcases take_append_cases hk with ⟨hfront, htake⟩ | ⟨j, rfl, hj, htake⟩
      · rw [htake, read_cut hnumbered arg hfirst hfront offset]
      · rw [htake, read_of_readable hnumbered arg hfirst]
        simp only
        rw [readMany_cut hnumbered formulas hothers hj (offset + front.length), Nat.add_assoc]
end

/-- Accepted bytecode, with or without an arity, is delimited by itself: no part of it and nothing
longer is accepted, and the error says how much is missing or too much. -/
theorem accepted_code_self_delimiting (hbuilt : Built registry) {code : Bytes} {formula : Formula}
    (h : registry.decode code arity = .ok formula) :
    (∀ k < code.length, registry.decode (code.take k) arity = .error (.unexpectedEnd k)) ∧
      ∀ more, more ≠ [] → registry.decode (code ++ more) arity = .error (.trailingBytes more.length) := by
  have hnumbered := hbuilt.reached.numbered
  obtain ⟨widened, hreadable⟩ := (decode_eq_ok_iff_readable hnumbered arity code formula).mp h
  constructor
  · intro k hk
    rw [decode, read_cut hnumbered formula hreadable hk 0, Nat.zero_add]
  · intro more hmore
    rw [decode, read_of_readable hnumbered formula hreadable]
    exact if_neg hmore

/-- A call with two bytes in another one, which has data and a reference as its arguments. -/
theorem accepted_code_self_delimiting_nested :
    Built (trio : Registry Unit) ∧
    (trio : Registry Unit).decode [0x45, 0, 0x48, 0x40, 0x82, 1, 2, 3] (some 4) =
      .ok (.call 2 [.call 1 [.data [1, 2], .argument 3]]) ∧
    (∀ k < 8, (trio : Registry Unit).decode
      ([0x45, 0, 0x48, 0x40, 0x82, 1, 2, 3].take k) (some 4) = .error (.unexpectedEnd k)) ∧
    (trio : Registry Unit).decode ([0x45, 0, 0x48, 0x40, 0x82, 1, 2, 3] ++ [9, 9]) (some 4) =
      .error (.trailingBytes 2) := by
  have hwell : (trio : Registry Unit).WellFormed (.call 2 [.call 1 [.data [1, 2], .argument 3]]) :=
    ⟨⟨_, rfl, rfl⟩, ⟨⟨_, rfl, rfl⟩, show 2 ≤ 127 by decide, show 3 < 16 by decide, trivial⟩,
      trivial⟩
  have hencode : (trio : Registry Unit).encode (.call 2 [.call 1 [.data [1, 2], .argument 3]]) =
      .ok [0x45, 0, 0x48, 0x40, 0x82, 1, 2, 3] := rfl
  have hdecode : (trio : Registry Unit).decode [0x45, 0, 0x48, 0x40, 0x82, 1, 2, 3] (some 4) =
      .ok (.call 2 [.call 1 [.data [1, 2], .argument 3]]) := by
    refine decode_encode trio_built.reached.numbered hwell hencode ?_ (by decide)
    rintro count ⟨⟩
    decide
  obtain ⟨hcut, hmore⟩ := accepted_code_self_delimiting trio_built hdecode
  exact ⟨trio_built, hdecode, hcut, hmore [9, 9] (List.cons_ne_nil _ _)⟩

end Registry
end ByteFormula
