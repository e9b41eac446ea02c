import ByteFormula.Proofs.BaseRegistry
import ByteFormula.Proofs.Decompilation

/-! The function that bytecode calls first, without decoding the rest. The name is found from the code
of the head alone, while decoding looks at the kind of the head as well. The two agree on every head
except for the long ones that carry the code of a reference: no function has such a code, so decoding
refuses them, but they are taken for references when a name is asked for. -/
namespace ByteFormula

def Head.isStray : Head → Bool
  | .long code _ => decide (code < argumentCodes)
  | _ => false

namespace Registry

variable {σ : Type} {registry : Registry σ} {arity : Option Nat} {bytecode : Bytes} {head : Head}

/-- The name that goes with what the decoder makes of a head. A call with the wrong number of
arguments still has one. -/
def symbolOfOpening (registry : Registry σ) :
    Except DecodeError Opening → Except DecodeError (Option String)
  | .ok (.data _) => .ok none
  | .ok (.argument _) => .ok none
  | .ok (.call index _) => .ok (some (registry.nameOf index))
  | .error (.arityMismatch symbol _ _) => .ok (some symbol)
  | .error e => .error e

private theorem Numbered.byCode?_reference (hnumbered : Numbered registry) {code : Nat}
    (hcode : code < argumentCodes) : registry.byCode? code = none := by
  cases hfound : registry.byCode? code with
  | none => rfl
  | some found =>
    obtain ⟨hfunction, rfl⟩ := hnumbered.byCode?_eq_some_iff.mp hfound
    have hbounds := hnumbered.code_bounds hfunction
    cases hspace : found.2.space <;> rw [hspace] at hbounds <;>
      simp only [CodeSpace.first, argumentCodes] at hbounds hcode <;> omega

/-- A head that is not stray is named after what the decoder makes of it. -/
theorem symbolOf_eq_symbolOfOpening (hread : Head.read bytecode = .ok head)
    (hstray : head.isStray = false) :
    registry.symbolOf bytecode = registry.symbolOfOpening (registry.opening none head) := by
  unfold symbolOf
  rw [hread]
  cases head with
  | data length => rfl
  | short code =>
    simp only [Head.code?, opening]
    by_cases hcode : code < argumentCodes
    · simp only [if_pos hcode, symbolOfOpening]
    · simp only [if_neg hcode]
      cases hfound : registry.byCode? code with
      | none => rfl
      | some found =>
        have hname := nameOf_eq (function?_of_lookup? hfound)
        cases harity : found.2.arity <;> simp only [harity, symbolOfOpening, hname]
  | long code declared =>
    have hcode : ¬ code < argumentCodes := of_decide_eq_false hstray
    simp only [Head.code?, opening, if_neg hcode]
    cases hfound : registry.byCode? code with
    | none => rfl
    | some found =>
      have hname := nameOf_eq (function?_of_lookup? hfound)
      cases haccepts : found.2.arity.accepts declared <;>
        simp [haccepts, symbolOfOpening, hname]

/-- A stray head is refused by the decoder, but passes for a reference when a name is asked for. -/
theorem symbolOf_stray (hnumbered : Numbered registry) (hread : Head.read bytecode = .ok head)
    (hstray : head.isStray = true) (arity : Option Nat) :
    ∃ code, registry.opening arity head = .error (.unknownFunctionCode code) ∧
      registry.symbolOf bytecode = .ok none := by
  cases head with
  | data length => cases hstray
  | short code => cases hstray
  | long code declared =>
    have hcode : code < argumentCodes := of_decide_eq_true hstray
    refine ⟨code, ?_, ?_⟩
    · simp only [opening, hnumbered.byCode?_reference hcode]
    · simp only [symbolOf, hread, Head.code?, if_pos hcode]

/-- A head that the decoder refuses has all bytecode with it refused. -/
theorem decode_of_opening_error {e : DecodeError} (hread : Head.read bytecode = .ok head)
    (hopening : registry.opening arity head = .error e) :
    registry.decode bytecode arity = .error e := by
  rw [decode, read, hread]
  simp only [hopening]

/-- A head that the decoder accepts is named after what it opens. -/
theorem symbolOf_of_opening (hnumbered : Numbered registry) {opened : Opening}
    (hread : Head.read bytecode = .ok head) (hopening : registry.opening none head = .ok opened) :
    registry.symbolOf bytecode = registry.symbolOfOpening (.ok opened) := by
  cases hstray : head.isStray with
  | false => rw [symbolOf_eq_symbolOfOpening hread hstray, hopening]
  | true =>
    obtain ⟨code, hrefused, -⟩ := symbolOf_stray hnumbered hread hstray none
    cases hrefused.symm.trans hopening

private theorem symbolOf_of_decode_data (hnumbered : Numbered registry) {data : Bytes}
    (h : registry.decode bytecode arity = .ok (.data data)) :
    registry.symbolOf bytecode = .ok none := by
  obtain ⟨widened, hwell, hspells, -, -⟩ := (decode_eq_ok_iff_readable hnumbered _ _ _).mp h
  cases hspells
  have hfits : (Head.data data.length).Fits := hwell
  exact symbolOf_of_opening hnumbered (Head.read_layout hfits data) rfl

private theorem symbolOf_of_decode_argument (hnumbered : Numbered registry) {index : Nat}
    (h : registry.decode bytecode arity = .ok (.argument index)) :
    registry.symbolOf bytecode = .ok none := by
  obtain ⟨widened, hlow, hspells, -, -⟩ := (decode_eq_ok_iff_readable hnumbered _ _ _).mp h
  cases hspells
  have hfits : (Head.short index).Fits := Nat.lt_trans hlow (by decide)
  have hread := Head.read_layout hfits []
  rw [List.append_nil] at hread
  have hopening : registry.opening none (.short index) = .ok (.argument index) := if_pos hlow
  exact symbolOf_of_opening hnumbered hread hopening

private theorem symbolOf_of_decode_call (hnumbered : Numbered registry) {index : Nat}
    {args : List Formula} (h : registry.decode bytecode arity = .ok (.call index args)) :
    ∃ function, registry.function? index = some function ∧
      registry.symbolOf bytecode = .ok (some function.symbol) := by
  obtain ⟨widened, hwell, hspells, -, -⟩ := (decode_eq_ok_iff_readable hnumbered _ _ _).mp h
  obtain ⟨head, back, n, hfits, hopens, rfl, -⟩ := hspells.head hnumbered hwell
  obtain ⟨⟨function, hfunction, -⟩, -⟩ := hwell
  refine ⟨function, hfunction, ?_⟩
  rw [symbolOf_of_opening hnumbered (Head.read_layout hfits back)
    (opening_of_opens hnumbered hopens trivial), symbolOfOpening, nameOf_eq hfunction]

/-- Bytecode without a name starts with data, with a reference or with a stray head. -/
theorem head_of_symbolOf_none (h : registry.symbolOf bytecode = .ok none) :
    ∃ head, Head.read bytecode = .ok head ∧
      ((∃ length, registry.opening none head = .ok (.data length)) ∨
        (∃ index, registry.opening none head = .ok (.argument index)) ∨ head.isStray = true) := by
  cases hread : Head.read bytecode with
  | error e =>
    rw [symbolOf, hread] at h
    cases h
  | ok head =>
    refine ⟨head, rfl, ?_⟩
    cases hstray : head.isStray with
    | true => exact .inr (.inr rfl)
    | false =>
      rw [symbolOf_eq_symbolOfOpening hread hstray] at h
      cases hopening : registry.opening none head with
      | error e =>
        rw [hopening] at h
        cases e <;> cases h
      | ok opened =>
        rw [hopening] at h
        cases opened with
        | data length => exact .inl ⟨length, rfl⟩
        | argument index => exact .inr (.inl ⟨index, rfl⟩)
        | call index count => cases h

/-- The decoder knows a code or does not know it, whatever the arity. -/
theorem opening_none_of_unknown {code : Nat}
    (h : registry.opening arity head = .error (.unknownFunctionCode code)) :
    registry.opening none head = .error (.unknownFunctionCode code) := by
  cases head with
  | data length => cases h
  | long code declared => exact h
  | short code =>
    simp only [opening] at h ⊢
    split at h
    · cases arity with
      | none => cases h
      | some count =>
        simp only at h
        split at h <;> cases h
    · rw [if_neg ‹_›]
      exact h

/-- The name of bytecode is that of the function it calls, and none for data and references, in the
sense of the decoder; and a code that the decoder does not know is reported in the same way. Only
stray heads, which the decoder refuses for their code, have no name instead. -/
theorem symbolOf_agrees_unless_stray (hbuilt : Built registry) (bytecode : Bytes) :
    (∀ arity index args, registry.decode bytecode arity = .ok (.call index args) →
      ∃ function, registry.function? index = some function ∧
        registry.symbolOf bytecode = .ok (some function.symbol)) ∧
    (∀ arity formula, registry.decode bytecode arity = .ok formula →
      ((∃ data, formula = .data data) ∨ ∃ index, formula = .argument index) →
        registry.symbolOf bytecode = .ok none) ∧
    (registry.symbolOf bytecode = .ok none → ∃ head, Head.read bytecode = .ok head ∧
      ((∃ length, registry.opening none head = .ok (.data length)) ∨
        (∃ index, registry.opening none head = .ok (.argument index)) ∨ head.isStray = true)) ∧
    (∀ arity head code, Head.read bytecode = .ok head →
      registry.opening arity head = .error (.unknownFunctionCode code) →
        registry.decode bytecode arity = .error (.unknownFunctionCode code) ∧
        registry.symbolOf bytecode =
          if head.isStray then .ok none else .error (.unknownFunctionCode code)) ∧
    ∀ arity head, Head.read bytecode = .ok head → head.isStray = true →
      ∃ code, registry.opening arity head = .error (.unknownFunctionCode code) := by
  have hnumbered := hbuilt.reached.numbered
  refine ⟨fun arity index args h => symbolOf_of_decode_call hnumbered h,
    fun arity formula h hkind => ?_, head_of_symbolOf_none,
    fun arity head code hread hunknown => ⟨decode_of_opening_error hread hunknown, ?_⟩,
    fun arity head hread hstray => ?_⟩
  · rcases hkind with ⟨data, rfl⟩ | ⟨index, rfl⟩
    · exact symbolOf_of_decode_data hnumbered h
    · exact symbolOf_of_decode_argument hnumbered h
  · cases hstray : head.isStray with
    | true =>
      obtain ⟨-, -, hnone⟩ := symbolOf_stray hnumbered hread hstray none
      rw [hnone, if_pos rfl]
    | false =>
      rw [symbolOf_eq_symbolOfOpening hread hstray, opening_none_of_unknown hunknown]
      rfl
  · obtain ⟨code, hrefused, -⟩ := symbolOf_stray hnumbered hread hstray arity
    exact ⟨code, hrefused⟩

/-- A call with two bytes, a code that no function has, and a reference. -/
theorem symbolOf_agrees_unless_stray_trio :
    Built (trio : Registry Unit) ∧
    (trio : Registry Unit).decode [0x45, 0, 0x10, 3] none = .ok (.call 2 [.call 0 [.argument 3]]) ∧
    (trio : Registry Unit).symbolOf [0x45, 0, 0x10, 3] = .ok (some "twice") ∧
    (trio : Registry Unit).decode [0x3f] none = .error (.unknownFunctionCode 63) ∧
    (trio : Registry Unit).symbolOf [0x3f] = .error (.unknownFunctionCode 63) := by
  have hdecode : (trio : Registry Unit).decode [0x45, 0, 0x10, 3] none =
      .ok (.call 2 [.call 0 [.argument 3]]) := by
    refine decode_encode trio_built.reached.numbered ⟨⟨_, rfl, rfl⟩, ⟨⟨_, rfl, rfl⟩, ?_, trivial⟩,
      trivial⟩ rfl (fun count hcount => by cases hcount) (by decide)
    exact show 3 < 16 by decide
  obtain ⟨function, hfunction, hsymbol⟩ :=
    (symbolOf_agrees_unless_stray (trio_built (σ := Unit)) [0x45, 0, 0x10, 3]).1 none 2 _ hdecode
  cases hfunction
  obtain ⟨hrefused, hunknown⟩ :=
    (symbolOf_agrees_unless_stray (trio_built (σ := Unit)) [0x3f]).2.2.2.1 none (.short 63) 63 rfl rfl
  exact ⟨trio_built, hdecode, hsymbol, hrefused, hunknown⟩

/-- In the base registry, the long head of code 15 has no name, though it is neither data nor a
reference to the decoder, which does not know its code. -/
theorem base_stray_unnamed : ∃ registry : Registry Tree, base = .ok registry ∧ Built registry ∧
    Head.read [0x40, 0x0f] = .ok (.long 15 0) ∧
    registry.opening none (.long 15 0) = .error (.unknownFunctionCode 15) ∧
    registry.decode [0x40, 0x0f] none = .error (.unknownFunctionCode 15) ∧
    registry.symbolOf [0x40, 0x0f] = .ok none := by
  obtain ⟨registry, hbase⟩ := exists_base
  have hbuilt := (base_basic hbase).1
  have hread : Head.read [0x40, 0x0f] = .ok (.long 15 0) := rfl
  have hopening : registry.opening none (.long 15 0) = .error (.unknownFunctionCode 15) := by
    simp only [opening, hbuilt.reached.numbered.byCode?_reference (show 15 < argumentCodes by decide)]
  obtain ⟨-, -, hnone⟩ := symbolOf_stray hbuilt.reached.numbered hread rfl none
  exact ⟨registry, hbase, hbuilt, hread, hopening, decode_of_opening_error hread hopening, hnone⟩

end Registry
end ByteFormula
