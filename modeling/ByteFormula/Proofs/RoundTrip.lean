import ByteFormula.Proofs.Spelling

/-! Writing and reading bytecode. What is written for a formula is its shortest spelling, so reading
undoes writing, and what is written for a formula that was read is at most as long as what it was
read from. -/
namespace ByteFormula.Registry

variable {σ : Type} {registry : Registry σ}

private theorem headOf_fits (hnumbered : Numbered registry) {index count : Nat}
    {function : Function σ} (hfunction : registry.function? index = some function)
    (hcount : count ≤ maxCallArguments) : (headOf function count).Fits := by
  unfold headOf
  split
  · exact (hnumbered.space_eq_short_iff hfunction).mp ‹_›
  · exact ⟨hnumbered.code_lt hfunction, hcount⟩

mutual
/-- A well-formed formula is written as its spelling without widened calls. -/
theorem encode_of_wellFormed (hnumbered : Numbered registry) (formula : Formula)
    (hwell : registry.WellFormed formula) :
    ∃ code, registry.encode formula = .ok code ∧ registry.Spells formula code 0 := by
  cases formula with
  | data bytes =>
    have hfits : (Head.data bytes.length).Fits := hwell
    refine ⟨_, ?_, .data bytes⟩
    rw [encode, encodeData, if_neg (Nat.not_lt_of_ge hwell), Head.bytes_eq_layout hfits]
  | argument index =>
    have hfits : (Head.short index).Fits := Nat.lt_trans hwell (by decide)
    exact ⟨_, by rw [encode, Head.bytes_eq_layout hfits], .argument index⟩
  | call index args =>
    obtain ⟨⟨function, hfunction, haccepts⟩, hargs⟩ := hwell
    obtain ⟨code, hcode, hspells⟩ := encodeAll_of_wellFormed hnumbered args hargs
    have hfits := headOf_fits hnumbered hfunction (hnumbered.count_le hfunction haccepts)
    refine ⟨(headOf function args.length).layout ++ code, ?_, ?_⟩
    · rw [encode, hfunction]
      simp only [hcode, Head.bytes_eq_layout hfits]
    · unfold headOf
      split
      · exact .short hfunction ‹_› hspells
      · exact .long hfunction ‹_› hspells

theorem encodeAll_of_wellFormed (hnumbered : Numbered registry) (formulas : List Formula)
    (hwell : registry.WellFormedAll formulas) :
    ∃ code, registry.encodeAll formulas = .ok code ∧ registry.SpellsAll formulas code 0 := by
  cases formulas with
  | nil => exact ⟨[], rfl, .nil⟩
  | cons arg rest =>
    obtain ⟨front, hfront, hspells⟩ := encode_of_wellFormed hnumbered arg hwell.1
    obtain ⟨back, hback, hrest⟩ := encodeAll_of_wellFormed hnumbered rest hwell.2
    refine ⟨front ++ back, ?_, .cons hspells hrest⟩
    rw [encodeAll, hfront]
    simp only [hback]
end

mutual
/-- A spelling is longer than the one without widened calls by a byte for each of them. -/
theorem Spells.length_eq (formula : Formula) {plain code : Bytes} {m widened : Nat}
    (hplain : registry.Spells formula plain m) (hm : m = 0)
    (h : registry.Spells formula code widened) :
    plain.length + widened = code.length ∧ (widened = 0 → plain = code) := by
  cases formula with
  | data bytes =>
    cases hplain
    cases h
    exact ⟨rfl, fun _ => rfl⟩
  | argument index =>
    cases hplain
    cases h
    exact ⟨rfl, fun _ => rfl⟩
  | call index args =>
    cases hplain with
    | widened => omega
    | short hfunction hspace hargs =>
      cases h with
      | long hother hlong =>
        cases hfunction.symm.trans hother
        exact absurd hspace hlong
      | short hother _ hcode =>
        cases hfunction.symm.trans hother
        obtain ⟨hlength, heq⟩ := hargs.length_eq args hm hcode
        refine ⟨?_, fun h => by rw [heq h]⟩
        simp only [List.length_append, ← hlength]
        omega
      | widened hother _ hcode =>
        cases hfunction.symm.trans hother
        obtain ⟨hlength, -⟩ := hargs.length_eq args hm hcode
        refine ⟨?_, fun h => by omega⟩
        simp only [List.length_append, ← hlength, Head.length_layout, Head.width]
        omega
    | long hfunction hspace hargs =>
      cases h with
      | short hother hshort =>
        cases hfunction.symm.trans hother
        exact absurd hshort hspace
      | widened hother hshort =>
        cases hfunction.symm.trans hother
        exact absurd hshort hspace
      | long hother _ hcode =>
        cases hfunction.symm.trans hother
        obtain ⟨hlength, heq⟩ := hargs.length_eq args hm hcode
        refine ⟨?_, fun h => by rw [heq h]⟩
        simp only [List.length_append, ← hlength]
        omega

theorem SpellsAll.length_eq (formulas : List Formula) {plain code : Bytes} {m widened : Nat}
    (hplain : registry.SpellsAll formulas plain m) (hm : m = 0)
    (h : registry.SpellsAll formulas code widened) :
    plain.length + widened = code.length ∧ (widened = 0 → plain = code) := by
  cases formulas with
  | nil =>
    cases hplain
    cases h
    exact ⟨rfl, fun _ => rfl⟩
  | cons arg rest =>
    cases hplain with
    | cons hfirst hothers =>
      cases h with
      | cons harg hrest =>
        obtain ⟨hlength₁, heq₁⟩ := hfirst.length_eq arg (by omega) harg
        obtain ⟨hlength₂, heq₂⟩ := hothers.length_eq rest (by omega) hrest
        refine ⟨?_, fun h => by rw [heq₁ (by omega), heq₂ (by omega)]⟩
        simp only [List.length_append]
        omega
end

/-- Complete bytecode is decoded exactly to the formulas that it spells readably. -/
theorem decode_eq_ok_iff_readable (hnumbered : Numbered registry) (arity : Option Nat)
    (code : Bytes) (formula : Formula) :
    registry.decode code arity = .ok formula ↔
      ∃ widened, registry.Readable arity registry.maxCallDepth formula code widened := by
  unfold decode
  constructor
  · intro h
    split at h
    · cases h
    rename_i hread
    split at h
    · rename_i hrest
      cases h
      subst hrest
      obtain ⟨front, widened, rfl, -, hreadable⟩ := readable_of_read hnumbered hread
      rw [List.append_nil]
      exact ⟨widened, hreadable⟩
    · cases h
  · rintro ⟨widened, hreadable⟩
    have hread : registry.read arity registry.maxCallDepth 0 (code ++ []) = _ :=
      read_of_readable hnumbered formula hreadable
    rw [List.append_nil] at hread
    rw [hread]
    rfl

theorem decode_eq_ok_iff (hnumbered : Numbered registry) (code : Bytes) (formula : Formula) :
    registry.decode code none = .ok formula ↔
      registry.WellFormed formula ∧ formula.depth ≤ registry.maxCallDepth ∧
        ∃ widened, registry.Spells formula code widened := by
  rw [decode_eq_ok_iff_readable hnumbered]
  constructor
  · rintro ⟨widened, hreadable⟩
    exact ⟨hreadable.wellFormed, hreadable.depth, widened, hreadable.spells⟩
  · rintro ⟨hwell, hdepth, widened, hspells⟩
    exact ⟨widened, hwell, hspells, nofun, hdepth⟩

/-- What a formula is written as is read back as that formula, unless its references are not covered
or its calls are nested too deeply. -/
theorem decode_encode (hnumbered : Numbered registry) {arity : Option Nat} {formula : Formula}
    {code : Bytes} (hwell : registry.WellFormed formula)
    (hencode : registry.encode formula = .ok code)
    (hwithin : ∀ count, arity = some count → formula.numArgs ≤ count)
    (hdepth : formula.depth ≤ registry.maxCallDepth) :
    registry.decode code arity = .ok formula := by
  obtain ⟨plain, hplain, hspells⟩ := encode_of_wellFormed hnumbered formula hwell
  cases hplain.symm.trans hencode
  exact (decode_eq_ok_iff_readable hnumbered arity code formula).mpr
    ⟨0, hwell, hspells, hwithin, hdepth⟩

theorem decode_encode_refused (hnumbered : Numbered registry) {arity : Option Nat} {formula : Formula}
    {code : Bytes} (hwell : registry.WellFormed formula)
    (hencode : registry.encode formula = .ok code)
    (h : ¬ ((∀ count, arity = some count → formula.numArgs ≤ count) ∧
      formula.depth ≤ registry.maxCallDepth)) :
    ∃ e, registry.decode code arity = .error e ∧
      registry.Refusal arity registry.maxCallDepth formula.references formula.depth e := by
  obtain ⟨plain, hplain, hspells⟩ := encode_of_wellFormed hnumbered formula hwell
  cases hplain.symm.trans hencode
  have hnot : ¬ registry.Readable arity registry.maxCallDepth formula code 0 :=
    fun hreadable => h ⟨hreadable.within, hreadable.depth⟩
  obtain ⟨e, he, hrefusal⟩ := read_refused hnumbered formula hwell hspells hnot 0 []
  rw [List.append_nil] at he
  exact ⟨e, by rw [decode, he], hrefusal⟩

/-- A formula that is read from what another is written as is that other one. -/
theorem eq_of_decode_encode (hnumbered : Numbered registry) {arity : Option Nat}
    {formula body : Formula} {code : Bytes} (hwell : registry.WellFormed formula)
    (hencode : registry.encode formula = .ok code)
    (hdecode : registry.decode code arity = .ok body) : body = formula := by
  by_cases h : (∀ count, arity = some count → formula.numArgs ≤ count) ∧
      formula.depth ≤ registry.maxCallDepth
  · have hsame := decode_encode hnumbered hwell hencode h.1 h.2
    exact Except.ok.inj (hdecode.symm.trans hsame)
  · obtain ⟨e, he, -⟩ := decode_encode_refused hnumbered hwell hencode h
    rw [he] at hdecode
    cases hdecode

/-- Reading undoes writing: within whatever bytes the code of a well-formed formula stands, it is
read back to its end unless its calls are nested too deeply. -/
theorem readAt_encode (hbuilt : Built registry) (formula : Formula)
    (hwell : registry.WellFormed formula) :
    ∃ code, registry.encode formula = .ok code ∧
      (∀ (front back : Bytes) (arity : Option Nat) (depth : Nat),
        (∀ count, arity = some count → formula.numArgs ≤ count) →
        depth + formula.depth ≤ registry.maxCallDepth →
        registry.readAt (front ++ code ++ back) front.length arity depth =
          .ok (formula, front.length + code.length)) ∧
      (formula.depth ≤ registry.maxCallDepth → registry.decode code none = .ok formula) ∧
      (registry.maxCallDepth < formula.depth →
        ∃ place, registry.decode code none = .error (.tooDeep registry.maxCallDepth place)) := by
  have hnumbered := hbuilt.reached.numbered
  obtain ⟨code, hcode, hspells⟩ := encode_of_wellFormed hnumbered formula hwell
  refine ⟨code, hcode, ?_, ?_, ?_⟩
  · intro front back arity depth hwithin hdepth
    rw [readAt, List.append_assoc, List.drop_left,
      read_of_readable hnumbered formula ⟨hwell, hspells, hwithin, by omega⟩]
  · intro hdepth
    exact (decode_eq_ok_iff hnumbered code formula).mpr ⟨hwell, hdepth, 0, hspells⟩
  · intro hdeep
    have hwithin : ∀ count, none = some count → formula.numArgs ≤ count := fun _ h => nomatch h
    obtain ⟨place, hplace⟩ := read_too_deep hnumbered formula hwell hspells hwithin hdeep 0 []
    rw [List.append_nil] at hplace
    exact ⟨place, by rw [decode, hplace]⟩

/-- Two calls in each other, read from between other bytes. -/
theorem readAt_encode_twice_count :
    Built (trio : Registry Unit) ∧
    (trio : Registry Unit).WellFormed (.call 2 [.call 1 [.data [1, 2], .argument 3]]) ∧
    ∃ code, (trio : Registry Unit).encode (.call 2 [.call 1 [.data [1, 2], .argument 3]]) =
        .ok code ∧
      (trio : Registry Unit).readAt ([7] ++ code ++ [9]) 1 (some 4) 2 =
        .ok (.call 2 [.call 1 [.data [1, 2], .argument 3]], 1 + code.length) ∧
      (trio : Registry Unit).decode code none =
        .ok (.call 2 [.call 1 [.data [1, 2], .argument 3]]) := by
  have hwell : (trio : Registry Unit).WellFormed (.call 2 [.call 1 [.data [1, 2], .argument 3]]) :=
    ⟨⟨_, rfl, rfl⟩, ⟨⟨_, rfl, rfl⟩, show 2 ≤ 127 by decide, show 3 < 16 by decide, trivial⟩,
      trivial⟩
  obtain ⟨code, hcode, hread, hdecode, -⟩ := readAt_encode trio_built _ hwell
  refine ⟨trio_built, hwell, code, hcode, hread [7] [9] (some 4) 2 ?_ ?_, hdecode ?_⟩
  · rintro count ⟨⟩
    decide
  · decide
  · decide

/-- Decoding accepts one language, in which only calls of embedded-short functions have a second
spelling. Writing what was read shortens it by a byte for each such spelling, and changes nothing
else. -/
theorem decode_eq_ok_iff_spells (hbuilt : Built registry) (code : Bytes) :
    (∀ formula, registry.decode code none = .ok formula ↔
      registry.WellFormed formula ∧ formula.depth ≤ registry.maxCallDepth ∧
        ∃ widened, registry.Spells formula code widened) ∧
    ∀ formula widened, registry.decode code none = .ok formula →
      registry.Spells formula code widened →
      ∃ plain, registry.encode formula = .ok plain ∧ registry.decode plain none = .ok formula ∧
        plain.length + widened = code.length ∧ (plain = code ↔ widened = 0) := by
  have hnumbered := hbuilt.reached.numbered
  refine ⟨decode_eq_ok_iff hnumbered code, fun formula widened hdecode hspells => ?_⟩
  obtain ⟨hwell, hdepth, -⟩ := (decode_eq_ok_iff hnumbered code formula).mp hdecode
  obtain ⟨plain, hplain, hshortest⟩ := encode_of_wellFormed hnumbered formula hwell
  obtain ⟨hlength, heq⟩ := hshortest.length_eq formula rfl hspells
  refine ⟨plain, hplain, ?_, hlength, ?_, fun h => heq h⟩
  · exact (decode_eq_ok_iff hnumbered plain formula).mpr ⟨hwell, hdepth, 0, hshortest⟩
  · rintro rfl
    omega

/-- A call of an embedded-short function that is spelled with two bytes. -/
theorem decode_eq_ok_iff_spells_not :
    Built (trio : Registry Unit) ∧
    (trio : Registry Unit).decode [68, 16, 0] none = .ok (.call 0 [.argument 0]) ∧
    ∃ plain, (trio : Registry Unit).encode (.call 0 [.argument 0]) = .ok plain ∧
      (trio : Registry Unit).decode plain none = .ok (.call 0 [.argument 0]) ∧
      plain.length + 1 = 3 ∧ (plain = [68, 16, 0] ↔ 1 = 0) := by
  have hnot : (trio : Registry Unit).function? 0 =
      some ⟨"not", 16, .fixed 1, .short _, none⟩ := rfl
  have hspells : (trio : Registry Unit).Spells (.call 0 [.argument 0]) [68, 16, 0] 1 :=
    .widened hnot rfl (.cons (.argument 0) .nil)
  obtain ⟨hiff, hplain⟩ := decode_eq_ok_iff_spells (trio_built : Built (trio : Registry Unit))
    [68, 16, 0]
  have hdecode := (hiff (.call 0 [.argument 0])).mpr
    ⟨⟨⟨_, hnot, rfl⟩, show 0 < 16 by decide, trivial⟩, by decide, 1, hspells⟩
  exact ⟨trio_built, hdecode, hplain _ 1 hdecode hspells⟩

end ByteFormula.Registry
