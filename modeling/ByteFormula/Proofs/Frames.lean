import ByteFormula.Machine.Evaluate

/-! The stack of frames during an evaluation: what may become of the frames that are there, and where
their references lead. -/
namespace ByteFormula

abbrev Stack := Array Frame

/-- Nothing has become of a frame but that values have come in where there was none. -/
structure Frame.Fills (before after : Frame) : Prop where
  scope : after.scope = before.scope
  size : after.slots.size = before.slots.size
  slot : ∀ {index : Nat} {slot : Slot}, before.slots[index]? = some slot →
    ∃ value, after.slots[index]? = some ⟨slot.formula, value⟩ ∧
      ∀ kept, slot.value = some kept → value = some kept

theorem Frame.Fills.refl (frame : Frame) : frame.Fills frame :=
  ⟨rfl, rfl, fun {_ slot} h => ⟨slot.value, h, fun _ => id⟩⟩

theorem Frame.Fills.trans {before middle after : Frame} (h : before.Fills middle)
    (h' : middle.Fills after) : before.Fills after := by
  refine ⟨h'.scope.trans h.scope, h'.size.trans h.size, fun hslot => ?_⟩
  obtain ⟨value, hmiddle, hkept⟩ := h.slot hslot
  obtain ⟨last, hafter, hkept'⟩ := h'.slot hmiddle
  exact ⟨last, hafter, fun kept hvalue => hkept' kept (hkept kept hvalue)⟩

/-- Where a slot comes from, seen from the later frame. -/
theorem Frame.Fills.origin {before after : Frame} (h : before.Fills after) {index : Nat} {slot : Slot}
    (hslot : after.slots[index]? = some slot) :
    ∃ value, before.slots[index]? = some ⟨slot.formula, value⟩ ∧
      ∀ kept, value = some kept → slot.value = some kept := by
  have hlt : index < before.slots.size := h.size ▸ (Array.getElem?_eq_some_iff.mp hslot).1
  have hold : before.slots[index]? = some before.slots[index] := Array.getElem?_eq_getElem hlt
  obtain ⟨value, hvalue, hkept⟩ := h.slot hold
  cases hvalue.symm.trans hslot
  exact ⟨_, hold, hkept⟩

namespace Stack

/-- The frames of a stack are all there still, with no change but values that came in. -/
structure Fills (before after : Stack) : Prop where
  size : after.size = before.size
  frame : ∀ {position : Nat} {frame : Frame}, before[position]? = some frame →
    ∃ filled, after[position]? = some filled ∧ frame.Fills filled

def Unset (frames : Stack) (position index : Nat) : Prop :=
  ∃ frame formula, frames[position]? = some frame ∧ frame.slots[index]? = some ⟨formula, none⟩

def Kept (frames : Stack) (position index : Nat) : Prop :=
  ∃ frame formula value, frames[position]? = some frame ∧
    frame.slots[index]? = some ⟨formula, some value⟩

/-- References lead to frames further out. The outermost frame refers to itself, which is harmless
since its arguments are data. -/
def Ordered (frames : Stack) : Prop :=
  ∀ ⦃position : Nat⦄ ⦃frame : Frame⦄, frames[position]? = some frame →
    frame.scope < position ∨ position = 0 ∧ frame.scope = 0 ∧
      ∀ ⦃index : Nat⦄ ⦃slot : Slot⦄, frame.slots[index]? = some slot → slot.formula.isData = true

section

variable {frames before middle after : Stack} {position index : Nat}

theorem Unset.not_kept (h : Unset frames position index) : ¬ Kept frames position index := by
  rintro ⟨frame, formula, value, hframe, hslot⟩
  obtain ⟨found, other, hfound, hunset⟩ := h
  cases hfound.symm.trans hframe
  cases hunset.symm.trans hslot

theorem Fills.refl (frames : Stack) : Fills frames frames :=
  ⟨rfl, fun {_ frame} h => ⟨frame, h, .refl frame⟩⟩

theorem Fills.trans (h : Fills before middle) (h' : Fills middle after) : Fills before after := by
  refine ⟨h'.size.trans h.size, fun hframe => ?_⟩
  obtain ⟨filled, hmiddle, hfills⟩ := h.frame hframe
  obtain ⟨last, hafter, hfills'⟩ := h'.frame hmiddle
  exact ⟨last, hafter, hfills.trans hfills'⟩

/-- What has become of a frame, seen from the later stack. -/
theorem Fills.origin (h : Fills before after) {filled : Frame}
    (hfilled : after[position]? = some filled) :
    ∃ frame, before[position]? = some frame ∧ frame.Fills filled := by
  have hlt : position < before.size := h.size ▸ (Array.getElem?_eq_some_iff.mp hfilled).1
  obtain ⟨found, hfound, hfills⟩ := h.frame (Array.getElem?_eq_getElem hlt)
  cases hfound.symm.trans hfilled
  exact ⟨_, Array.getElem?_eq_getElem hlt, hfills⟩

theorem Fills.back? (h : Fills before after) {frame : Frame} (hframe : before.back? = some frame) :
    ∃ filled, after.back? = some filled ∧ frame.Fills filled := by
  rw [Array.back?] at hframe ⊢
  rw [h.size]
  exact h.frame hframe

theorem Fills.kept (h : Fills before after) (hkept : Kept before position index) :
    Kept after position index := by
  obtain ⟨frame, formula, value, hframe, hslot⟩ := hkept
  obtain ⟨filled, hfilled, hfills⟩ := h.frame hframe
  obtain ⟨last, hlast, hsame⟩ := hfills.slot hslot
  cases hsame value rfl
  exact ⟨filled, formula, value, hfilled, hlast⟩

/-- An argument without a value had none before. -/
theorem Fills.unset (h : Fills before after) (hunset : Unset after position index) :
    Unset before position index := by
  obtain ⟨filled, formula, hfilled, hlast⟩ := hunset
  obtain ⟨frame, hframe, hfills⟩ := h.origin hfilled
  obtain ⟨value, hslot, hkept⟩ := hfills.origin hlast
  cases value with
  | none => exact ⟨frame, formula, hframe, hslot⟩
  | some kept => cases hkept kept rfl

theorem Fills.ordered (h : Fills before after) (hordered : Ordered before) : Ordered after := by
  intro position filled hfilled
  obtain ⟨frame, hframe, hfills⟩ := h.origin hfilled
  rw [hfills.scope]
  refine (hordered hframe).imp_right fun ⟨hzero, hscope, hdata⟩ => ⟨hzero, hscope, ?_⟩
  intro index slot hslot
  obtain ⟨value, hold, -⟩ := hfills.origin hslot
  have hformula := hdata hold
  exact hformula

theorem Fills.pop {frame : Frame} (h : Fills (before.push frame) after) :
    Fills before after.pop := by
  have hsize : after.size = before.size + 1 := by simpa using h.size
  refine ⟨by simp [hsize], fun {position found} hfound => ?_⟩
  have hlt := (Array.getElem?_eq_some_iff.mp hfound).1
  have hpushed : (before.push frame)[position]? = some found := by
    rw [Array.getElem?_push, if_neg (Nat.ne_of_lt hlt), hfound]
  obtain ⟨filled, hfilled, hfills⟩ := h.frame hpushed
  refine ⟨filled, ?_, hfills⟩
  rw [Array.getElem?_pop, if_pos (by omega), hfilled]

theorem Unset.of_push {frame : Frame} (h : Unset (frames.push frame) position index)
    (hposition : position < frames.size) : Unset frames position index := by
  obtain ⟨found, formula, hfound, hslot⟩ := h
  rw [Array.getElem?_push, if_neg (Nat.ne_of_lt hposition)] at hfound
  exact ⟨found, formula, hfound, hslot⟩

theorem Kept.pop (h : Kept frames position index) (hposition : position + 1 < frames.size) :
    Kept frames.pop position index := by
  obtain ⟨found, formula, value, hfound, hslot⟩ := h
  refine ⟨found, formula, value, ?_, hslot⟩
  rw [Array.getElem?_pop, if_pos (by omega), hfound]

theorem Ordered.scope_lt_size (h : Ordered frames) {frame : Frame}
    (hframe : frames[position]? = some frame) : frame.scope < frames.size := by
  have hlt := (Array.getElem?_eq_some_iff.mp hframe).1
  rcases h hframe with hscope | ⟨rfl, hscope, -⟩ <;> omega

/-- The formula of an argument is data, or its references lead further out. -/
theorem Ordered.outward (h : Ordered frames) {frame : Frame} {slot : Slot}
    (hframe : frames[position]? = some frame) (hslot : frame.slots[index]? = some slot) :
    frame.scope < position ∨ slot.formula.isData = true :=
  (h hframe).imp_right fun ⟨_, _, hdata⟩ => hdata hslot

theorem Ordered.push (h : Ordered frames) {scope : Nat} (hscope : scope < frames.size)
    (args : List Formula) : Ordered (frames.push (Frame.ofArgs args scope)) := by
  intro position frame hframe
  rw [Array.getElem?_push] at hframe
  split at hframe
  · subst_vars
    cases hframe
    exact .inl hscope
  · exact h hframe

theorem ordered_outermost (args : List Bytes) :
    Ordered #[Frame.ofArgs (args.map Formula.data) 0] := by
  intro position frame hframe
  obtain ⟨hlt, rfl⟩ := Array.getElem?_eq_some_iff.mp hframe
  obtain rfl : position = 0 := by simpa using hlt
  refine .inr ⟨rfl, rfl, fun index slot hslot => ?_⟩
  simp only [List.getElem_toArray, List.getElem_cons_zero, Frame.ofArgs, List.map_map,
    List.getElem?_toArray, List.getElem?_map, Option.map_eq_some_iff] at hslot
  obtain ⟨bytes, -, rfl⟩ := hslot
  rfl

end
end Stack

namespace Machine

variable {σ : Type}

private theorem getElem?_store {machine : Machine σ} {position : Nat} {frame : Frame}
    (hframe : machine.frames[position]? = some frame) (index : Nat) (value : Bytes) :
    (machine.store position index value).frames[position]? =
      some { frame with
        slots := frame.slots.modify index fun slot => { slot with value := some value } } := by
  rw [store, Array.getElem?_modify, if_pos rfl, hframe, Option.map_some]

/-- Keeping a value leaves the other frames alone. -/
theorem getElem?_store_ne {machine : Machine σ} {position other : Nat} (hne : position ≠ other)
    (index : Nat) (value : Bytes) :
    (machine.store position index value).frames[other]? = machine.frames[other]? := by
  rw [store, Array.getElem?_modify, if_neg hne]

/-- A value may be kept where there was none before. -/
theorem fills_store {before : Stack} {machine : Machine σ} {position index : Nat}
    (h : Stack.Fills before machine.frames) (hunset : Stack.Unset before position index)
    (value : Bytes) : Stack.Fills before (machine.store position index value).frames := by
  refine ⟨by rw [store, Array.size_modify, h.size], fun {i frame} hframe => ?_⟩
  obtain ⟨filled, hfilled, hfills⟩ := h.frame hframe
  by_cases hi : position = i
  · subst hi
    refine ⟨_, getElem?_store hfilled index value, hfills.scope, ?_, fun {j slot} hslot => ?_⟩
    · rw [Array.size_modify, hfills.size]
    · obtain ⟨last, hlast, hsame⟩ := hfills.slot hslot
      rw [Array.getElem?_modify]
      by_cases hj : index = j
      · -- The slot had no value, so none is lost.
        subst hj
        obtain ⟨found, formula, hfound, hnone⟩ := hunset
        cases hfound.symm.trans hframe
        cases hnone.symm.trans hslot
        exact ⟨some value, by rw [if_pos rfl, hlast]; rfl, fun _ h => by cases h⟩
      · exact ⟨last, by rw [if_neg hj, hlast], hsame⟩
  · exact ⟨filled, by rw [getElem?_store_ne hi, hfilled], hfills⟩

/-- The argument whose value is kept has it, if it was there at all. -/
theorem kept_store {before : Stack} {machine : Machine σ} {position index : Nat}
    (h : Stack.Fills before machine.frames) (hunset : Stack.Unset before position index)
    (value : Bytes) : Stack.Kept (machine.store position index value).frames position index := by
  obtain ⟨frame, formula, hframe, hslot⟩ := hunset
  obtain ⟨filled, hfilled, hfills⟩ := h.frame hframe
  obtain ⟨last, hlast, -⟩ := hfills.slot hslot
  refine ⟨_, formula, value, getElem?_store hfilled index value, ?_⟩
  rw [Array.getElem?_modify, if_pos rfl, hlast, Option.map_some]

theorem kept_store_of_kept {machine : Machine σ} {other place : Nat}
    (h : Stack.Kept machine.frames other place) (position index : Nat) (value : Bytes) :
    Stack.Kept (machine.store position index value).frames other place := by
  obtain ⟨frame, formula, kept, hframe, hslot⟩ := h
  by_cases hposition : position = other
  · subst hposition
    refine ⟨_, formula, if index = place then value else kept, getElem?_store hframe index value, ?_⟩
    rw [Array.getElem?_modify, hslot]
    split <;> rfl
  · exact ⟨frame, formula, kept, by rw [getElem?_store_ne hposition, hframe], hslot⟩

end Machine
end ByteFormula
