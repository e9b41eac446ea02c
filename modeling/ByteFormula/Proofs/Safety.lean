import ByteFormula.Proofs.Consistency
import ByteFormula.Proofs.Lookups
import ByteFormula.Proofs.Stack

/-! Bytecode that is accepted with its arguments never misses one. Every reference on the stack leads
to a call further out that has so many arguments, and every call is of a function that takes as many
as it carries, so whatever an evaluation looks up is there. -/
namespace ByteFormula

variable {σ : Type}

namespace Registry

mutual
/-- A formula that can be evaluated in a call with `count` arguments: its references are below it,
and its calls are of functions that take as many arguments as they carry. -/
def Covers (registry : Registry σ) (count : Nat) : Formula → Prop
  | .data _ => True
  | .argument index => index < count
  | .call index args =>
    (∃ function, registry.function? index = some function ∧
      function.arity.accepts args.length = true) ∧ registry.CoversAll count args

def CoversAll (registry : Registry σ) (count : Nat) : List Formula → Prop
  | [] => True
  | arg :: rest => registry.Covers count arg ∧ registry.CoversAll count rest
end

variable {registry : Registry σ} {count : Nat}

mutual
theorem covers_of_wellFormed (formula : Formula) (hwell : registry.WellFormed formula)
    (hbelow : ∀ index ∈ formula.references, index < count) : registry.Covers count formula := by
  cases formula with
  | data bytes => trivial
  | argument index => exact hbelow index (List.mem_singleton_self index)
  | call index args => exact ⟨hwell.1, coversAll_of_wellFormed args hwell.2 hbelow⟩

theorem coversAll_of_wellFormed (formulas : List Formula) (hwell : registry.WellFormedAll formulas)
    (hbelow : ∀ index ∈ Formula.referencesAll formulas, index < count) :
    registry.CoversAll count formulas := by
  cases formulas with
  | nil => trivial
  | cons arg rest =>
    simp only [Formula.referencesAll, List.mem_append] at hbelow
    exact ⟨covers_of_wellFormed arg hwell.1 fun index h => hbelow index (.inl h),
      coversAll_of_wellFormed rest hwell.2 fun index h => hbelow index (.inr h)⟩
end

private theorem covers_of_mem {formulas : List Formula} (h : registry.CoversAll count formulas)
    {formula : Formula} (hmem : formula ∈ formulas) : registry.Covers count formula := by
  induction formulas with
  | nil => cases hmem
  | cons first rest ih =>
    rcases List.mem_cons.mp hmem with rfl | hrest
    · exact h.1
    · exact ih h.2 hrest

/-- The arguments of every call on the stack can be evaluated in the call that their references lead
to. That call is further out, except for data, which has no references. -/
def Orderly (registry : Registry σ) (calls : List Activation) : Prop :=
  ∀ ⦃position : Nat⦄ ⦃call : Activation⦄, calls[position]? = some call →
    ∃ outer, calls[call.scope]? = some outer ∧
      ∀ arg ∈ call.args, registry.Covers outer.args.length arg ∧
        (call.scope < position ∨ arg.isData = true)

theorem Orderly.push {calls : List Activation} (h : registry.Orderly calls) {scope : Nat}
    {outer : Activation} (hscope : calls[scope]? = some outer) {args : List Formula}
    (hargs : registry.CoversAll outer.args.length args) :
    registry.Orderly (calls ++ [⟨args, scope⟩]) := by
  have hkeeps : ∀ {i : Nat} {call : Activation}, calls[i]? = some call →
      (calls ++ [⟨args, scope⟩])[i]? = some call := by
    intro i call hcall
    rw [List.getElem?_append_left (List.getElem?_eq_some_iff.mp hcall).1, hcall]
  intro position call hcall
  by_cases hposition : position < calls.length
  · rw [List.getElem?_append_left hposition] at hcall
    obtain ⟨further, hfurther, hcovers⟩ := h hcall
    exact ⟨further, hkeeps hfurther, hcovers⟩
  · rw [List.getElem?_append_right (Nat.le_of_not_lt hposition)] at hcall
    rw [List.getElem?_singleton] at hcall
    split at hcall
    · cases hcall
      have hlt := (List.getElem?_eq_some_iff.mp hscope).1
      refine ⟨outer, hkeeps hscope, fun arg harg => ⟨covers_of_mem hargs harg, .inl ?_⟩⟩
      exact Nat.lt_of_lt_of_le hlt (Nat.le_of_not_lt hposition)
    · cases hcall

private theorem orderly_outermost (registry : Registry σ) (args : List Bytes) :
    registry.Orderly [⟨args.map .data, 0⟩] := by
  intro position call hcall
  rw [List.getElem?_singleton] at hcall
  split at hcall
  · cases hcall
    refine ⟨_, rfl, fun arg harg => ?_⟩
    obtain ⟨bytes, -, rfl⟩ := List.mem_map.mp harg
    exact ⟨trivial, .inr rfl⟩
  · cases hcall

end Registry

namespace Machine

open Registry (Orderly Covers CoversAll)

variable {registry : Registry σ}

def Finds (registry : Registry σ) (entered : Observed σ) : Prop :=
  ∀ ⦃index args scope machine outer⦄, registry.Orderly machine.activations →
    machine.activations[scope]? = some outer →
    registry.Covers outer.args.length (.call index args) →
    AllFound registry (entered index args scope machine)

section

variable {enter : Enter σ} {entered : Observed σ}

/-- A call on the stack is found there, and so are its arguments. -/
theorem found_of_activation {machine : Machine σ} {scope index : Nat} {outer : Activation}
    (hscope : machine.activations[scope]? = some outer) (hindex : index < outer.args.length) :
    (machine.looksUp (.frame scope)).Found registry ∧
      (machine.looksUp (.slot scope index)).Found registry := by
  obtain ⟨frame, hframe, rfl⟩ := frame_of_activation hscope
  rw [Frame.length_activation] at hindex
  exact ⟨(Array.getElem?_eq_some_iff.mp hframe).1, frame, hframe, hindex⟩

private theorem observeEvaluate_found (hreturns : Returns enter) (henter : Finds registry entered)
    {reach scope : Nat} {formula : Formula} {machine : Machine σ} {outer : Activation}
    (horderly : registry.Orderly machine.activations)
    (hscope : machine.activations[scope]? = some outer)
    (hcovers : registry.Covers outer.args.length formula)
    (hreach : scope < reach ∨ formula.isData = true) :
    AllFound registry (observeEvaluate enter entered reach scope formula machine) := by
  induction reach generalizing scope formula outer with
  | zero =>
    cases formula with
    | data bytes => exact allFound_nil
    | call index args => exact henter horderly hscope hcovers
    | argument index => simp [Formula.isData] at hreach
  | succ reach ih =>
    cases formula with
    | data bytes => exact allFound_nil
    | call index args => exact henter horderly hscope hcovers
    | argument index =>
      obtain ⟨hframe, hslot⟩ := found_of_activation hscope hcovers
      rw [observeEvaluate, allFound_look]
      refine ⟨hframe, ?_⟩
      split
      · exact allFound_nil
      rename_i frame hat
      rw [allFound_look]
      refine ⟨hslot, ?_⟩
      split
      · exact allFound_nil
      · exact allFound_nil
      rename_i formula hkept
      cases (getElem?_activations hat).symm.trans hscope
      have hmem := List.mem_of_getElem? (Frame.getElem?_activation hkept)
      obtain ⟨further, hfurther, hargs⟩ := horderly hscope
      obtain ⟨hcovered, houtward⟩ := hargs formula hmem
      have hle : scope ≤ reach := by
        simp only [Formula.isData, Bool.false_eq_true, or_false] at hreach
        omega
      rw [List.cons_append, allFound_happen, allFound_append]
      constructor
      · exact ih hfurther hcovered (houtward.imp_left fun h => Nat.lt_of_lt_of_le h hle)
      · -- The stack has the same calls when the value is kept.
        have hafter := activations_evaluate hreturns reach frame.scope formula machine
        split
        · exact allFound_nil
        · rename_i heq
          rw [heq] at hafter
          have hsame := hscope
          rw [← hafter] at hsame
          obtain ⟨hagain, hstore⟩ := found_of_activation hsame hcovers
          exact allFound_look.mpr ⟨hagain, allFound_look.mpr ⟨hstore, allFound_nil⟩⟩

private theorem observeServe_found {desk : Desk σ} {asked : Nat → Machine σ → List Observation}
    {calls : List Activation}
    (hreturns : ∀ index machine,
      (desk.argument index machine).2.activations = machine.activations)
    (hasked : ∀ {index machine}, index < desk.arity → machine.activations = calls →
      AllFound registry (asked index machine))
    {program : Host σ Bytes} (hprogram : program.AsksBelow desk.arity) {machine : Machine σ}
    (hcalls : machine.activations = calls) :
    AllFound registry (observeServe desk asked program machine) := by
  induction program generalizing machine with
  | done value => exact allFound_nil
  | raise fault => exact allFound_nil
  | argument index next ih =>
    rw [observeServe, List.cons_append, allFound_happen, allFound_append]
    refine ⟨hasked hprogram.1 hcalls, ih _ (hprogram.2 _) ?_⟩
    rw [hreturns, hcalls]
  | arity next ih => exact ih _ hprogram hcalls
  | depth next ih => exact ih _ (hprogram _) hcalls
  | outline next ih => exact ih _ (hprogram _) hcalls
  | invocationPath next ih => exact ih _ (hprogram _) hcalls
  | bytesAt path next ih => exact ih _ (hprogram _) hcalls
  | exchange change next ih => exact ih _ (hprogram _) hcalls

/-- A body finds what it looks up in the call that was just entered. -/
theorem observeBody_found (hreturns : Returns enter) (henter : Finds registry entered)
    (surroundings : Surroundings σ) {function : Function σ} {calls : List Activation}
    {call : Activation} (horderly : registry.Orderly (calls ++ [call]))
    (hprogram : ∀ program, function.body.program? = some program →
      program.AsksBelow call.args.length)
    (hformula : ∀ formula bytecode, function.body = .defined formula bytecode →
      registry.Covers call.args.length formula)
    {machine : Machine σ} (hcalls : machine.activations = calls ++ [call]) :
    AllFound registry (observeBody registry surroundings enter entered function
      call.args.length calls.length machine) := by
  have hown : (calls ++ [call])[calls.length]? = some call := List.getElem?_concat_length
  have hevaluate : ∀ {formula : Formula} {machine : Machine σ},
      registry.Covers call.args.length formula → machine.activations = calls ++ [call] →
      AllFound registry
        (observeEvaluate enter entered (calls.length + 1) calls.length formula machine) := by
    intro formula machine hcovers hcalls
    rw [← hcalls] at horderly hown
    exact observeEvaluate_found hreturns henter horderly hown hcovers (.inl (Nat.lt_succ_self _))
  cases hhost : function.body.program? with
  | some program =>
    rw [(runBody_host _ _ _ _ hhost _ _ _).2]
    refine observeServe_found (fun index machine => ?_) (fun hindex hcalls => ?_)
      (hprogram program hhost) hcalls
    · exact activations_evaluate hreturns _ _ _ machine
    · exact hevaluate hindex hcalls
  | none =>
    obtain ⟨formula, bytecode, hbody⟩ := Body.defined_of_program? hhost
    simp only [observeBody, hbody]
    exact hevaluate (hformula formula bytecode hbody) hcalls

end

/-- Calls find what they look up, however many may still be nested. -/
theorem observeCall_finds (hreached : registry.Reached)
    (hhosts : registry.HostsAt fun count program => program.AsksBelow count)
    (surroundings : Surroundings σ) (room : Nat) :
    Finds registry (observeCall registry surroundings room) := by
  induction room with
  | zero =>
    intro index args scope machine outer horderly hscope hcovers
    obtain ⟨⟨function, hfunction, -⟩, -⟩ := hcovers
    rw [observeCall, allFound_look, hfunction]
    exact ⟨Registry.lt_size_of_function? hfunction, allFound_nil⟩
  | succ room ih =>
    intro index args scope machine outer horderly hscope hcovers
    obtain ⟨⟨function, hfunction, haccepts⟩, hargs⟩ := hcovers
    rw [observeCall, allFound_look, hfunction]
    refine ⟨Registry.lt_size_of_function? hfunction, ?_⟩
    simp only [← length_activations, List.cons_append, allFound_happen, allFound_append]
    refine ⟨?_, allFound_nil⟩
    refine observeBody_found (call_returns registry surroundings room) ih surroundings
      (horderly.push hscope hargs) ?_ ?_ (activations_push machine args scope)
    · intro program hprogram
      exact hhosts hfunction hprogram haccepts
    · -- A definition was compiled for as many arguments as its calls carry.
      intro formula bytecode hbody
      have hrecorded := hreached.allRecorded hfunction hbody
      obtain ⟨-, arity, -, -, harity, hbelow, -⟩ := hrecorded.compiled
      rw [harity] at haccepts
      have hcount : arity = args.length := beq_iff_eq.mp haccepts
      rw [hcount] at hbelow
      exact Registry.covers_of_wellFormed formula hrecorded.wellFormed hbelow

end Machine

namespace Registry

variable {registry : Registry σ} {bytecode : Bytes} {args : List Bytes} {formula : Formula}

private theorem covers_of_decode (hreached : registry.Reached)
    (hdecode : registry.decode bytecode (some args.length) = .ok formula) :
    registry.Covers args.length formula := by
  obtain ⟨widened, hreadable⟩ :=
    (decode_eq_ok_iff_readable hreached.numbered _ _ _).mp hdecode
  have hwithin := hreadable.within args.length rfl
  exact covers_of_wellFormed formula hreadable.wellFormed
    ((numArgs_le_iff formula hreadable.wellFormed).mp hwithin)

private theorem observations_found (hreached : registry.Reached)
    (hhosts : registry.HostsAt fun count program => program.AsksBelow count)
    (hcovers : registry.Covers args.length formula) (surroundings : Surroundings σ) (state : σ) :
    AllFound registry (registry.observations surroundings state formula args) := by
  have hactivations : (Machine.start state args).activations = [⟨args.map .data, 0⟩] := by
    simp [Machine.start, Machine.activations, Frame.activation_ofArgs]
  have horderly := orderly_outermost registry args
  have hscope : ([⟨args.map .data, 0⟩] : List Activation)[0]? = some ⟨args.map .data, 0⟩ := rfl
  rw [← hactivations] at horderly hscope
  rw [← List.length_map Formula.data] at hcovers
  exact Machine.observeEvaluate_found (Machine.call_returns registry surroundings _)
    (Machine.observeCall_finds hreached hhosts surroundings _) horderly hscope hcovers
    (.inl Nat.zero_lt_one)

/-- An evaluation that finds all its arguments ends in no fault for a missing one, unless that was
made up. -/
theorem evaluate_spares_of_found {surroundings : Surroundings σ} {state : σ} {index count : Nat}
    (hhosts : registry.Hosts (Host.Spares (.argumentOutOfBounds index count)))
    (hsurroundings : surroundings.Spares (.argumentOutOfBounds index count))
    (hfound : AllFound registry (registry.observations surroundings state formula args)) :
    Result.Spares (.argumentOutOfBounds index count)
      (registry.evaluate surroundings state formula args).1 := by
  have hresult := Machine.evaluate_spares
    (Machine.call_spares hsurroundings hhosts registry.maxCallDepth) hfound
  unfold evaluate
  simp only
  split
  · nofun
  · rename_i hraised
    rw [Machine.start, hraised] at hresult
    rintro _ ⟨⟩
    rw [Fault.kind_atPath]
    exact hresult _ rfl

/-- If host functions only ask for arguments that their calls have, as all the embedded ones do,
bytecode that is accepted with its arguments finds every frame, every argument and every function
that it looks up. It ends in no fault for a missing argument, unless that was made up by a host
function or by the surroundings, which the embedded functions and trees do not do. -/
theorem decoded_lookups_found (hbuilt : Built registry)
    (hhosts : registry.HostsAt fun count program => program.AsksBelow count)
    (hdecode : registry.decode bytecode (some args.length) = .ok formula)
    (surroundings : Surroundings σ) (state : σ) :
    (∀ moment ∈ registry.trail surroundings state formula args, moment.Found registry) ∧
    (∀ index count, registry.Hosts (Host.Spares (.argumentOutOfBounds index count)) →
      surroundings.Spares (.argumentOutOfBounds index count) →
      ∀ fault, (registry.evaluateBytecode surroundings state bytecode args).1 =
        .error (.fault fault) → fault.kind ≠ .argumentOutOfBounds index count) ∧
    (∀ entry ∈ (Embedded.shortTable : List (String × Nat × Host σ Bytes)),
      entry.2.2.AsksBelow entry.2.1 ∧
        ∀ index count, entry.2.2.Spares (.argumentOutOfBounds index count)) ∧
    (∀ entry ∈ (Embedded.longTable : List (String × Arity × Host σ Bytes)),
      (∀ given, entry.2.1.accepts given = true → entry.2.2.AsksBelow given) ∧
        ∀ index count, entry.2.2.Spares (.argumentOutOfBounds index count)) ∧
    ∀ path index count, (Surroundings.ofTree path).Spares (.argumentOutOfBounds index count) := by
  have hreached := hbuilt.reached
  have hfound :=
    observations_found hreached hhosts (covers_of_decode hreached hdecode) surroundings state
  refine ⟨hfound, ?_, ?_, ?_, ?_⟩
  · intro index count hspares hsurroundings fault hfault
    have hresult := evaluate_spares_of_found hspares hsurroundings hfound
    unfold evaluateBytecode at hfault
    split at hfault
    · cases hfault
    rw [hdecode] at hfault
    simp only at hfault
    split at hfault
    · cases hfault
    · rename_i hraised
      rw [hraised] at hresult
      cases hfault
      exact hresult fault rfl
  · intro entry hentry
    have hbasic := Embedded.basic_shortTable entry hentry
    exact ⟨hbasic.asksBelow, fun _ _ => hbasic.spares rfl⟩
  · intro entry hentry
    have hbasic := Embedded.basic_longTable entry hentry
    obtain ⟨given, hgiven⟩ := exists_accepts entry.2.1
    exact ⟨fun given hgiven => (hbasic given hgiven).asksBelow,
      fun _ _ => (hbasic given hgiven).spares rfl⟩
  · intro path index count
    exact Surroundings.spares_ofTree rfl path

/-- A definition called on an argument that is longer than a constant could be. -/
theorem decoded_lookups_found_twice :
    Built (trio : Registry Tree) ∧
    ((trio : Registry Tree).HostsAt fun count program => program.AsksBelow count) ∧
    (trio : Registry Tree).decode [0x45, 0x00, 0x00] (some 1) = .ok (.call 2 [.argument 0]) ∧
    (∀ moment ∈ (trio : Registry Tree).trail (.ofTree none) (Tree.ofBytes [0, 0])
      (.call 2 [.argument 0]) [List.replicate 200 7], moment.Found (trio : Registry Tree)) ∧
    ∀ fault, ((trio : Registry Tree).evaluateBytecode (.ofTree none) (Tree.ofBytes [0, 0])
      [0x45, 0x00, 0x00] [List.replicate 200 7]).1 = .error (.fault fault) →
      fault.kind ≠ .argumentOutOfBounds 0 1 := by
  have hhosts : (trio : Registry Tree).HostsAt fun count program => program.AsksBelow count :=
    fun _ _ _ _ hfunction hprogram hcount =>
      (trio_basic hfunction hprogram hcount).asksBelow
  have hspares : (trio : Registry Tree).Hosts (Host.Spares (.argumentOutOfBounds 0 1)) :=
    trio_basic.hosts fun hbasic => hbasic.spares rfl
  have hdecode : (trio : Registry Tree).decode [0x45, 0x00, 0x00] (some 1) =
      .ok (.call 2 [.argument 0]) := rfl
  obtain ⟨hfound, hfaults, -, -, htrees⟩ := decoded_lookups_found
    (trio_built : Built (trio : Registry Tree)) hhosts
    (show (trio : Registry Tree).decode [0x45, 0x00, 0x00]
      (some [List.replicate 200 (7 : UInt8)].length) = _ from hdecode) (.ofTree none)
    (Tree.ofBytes [0, 0])
  exact ⟨trio_built, hhosts, hdecode, hfound, hfaults 0 1 hspares (htrees none 0 1)⟩

/-- A registry with a host function that asks for nothing and raises the fault for a missing
argument, and the embedded one that reads the surroundings. -/
def pretending : Registry Tree :=
  ⟨#[⟨"pretend", 16, .fixed 0, .short (.raise (Fault.ofKind (.argumentOutOfBounds 3 0))), none⟩,
     ⟨"@Path", 17, .fixed 1, .short Embedded.bytesAtPath, none⟩],
   ⟨[("@Path", 1), ("pretend", 0)]⟩, ⟨[(17, 1), (16, 0)]⟩, 4⟩

def pretendingSurroundings : Surroundings Tree :=
  ⟨none, fun _ tree => (.error (.argumentOutOfBounds 3 0), tree)⟩

/-- A host function may make up a fault for a missing argument, and so may the surroundings.
Bytecode that is accepted with its arguments, and that misses none, then ends in it. -/
theorem missing_argument_made_up :
    Built pretending ∧
    (pretending.HostsAt fun count program => program.AsksBelow count) ∧
    pretending.decode [0x10] (some 0) = .ok (.call 0 []) ∧
    (pretending.evaluateBytecode .none (Tree.ofBytes []) [0x10] []).1 =
      .error (.fault ⟨.argumentOutOfBounds 3 0, some "pretend", none⟩) ∧
    pretending.decode [0x11, 0x00] (some 1) = .ok (.call 1 [.argument 0]) ∧
    (pretending.evaluateBytecode pretendingSurroundings (Tree.ofBytes []) [0x11, 0x00] [[]]).1 =
      .error (.fault ⟨.argumentOutOfBounds 3 0, some "@Path", none⟩) := by
  have hbound : Built (empty.setMaxCallDepth 4 : Registry Tree) := .setMaxCallDepth .empty 4
  have hpretend := Built.embedShort hbound (show embedShort _ "pretend" 0
    (.raise (Fault.ofKind (.argumentOutOfBounds 3 0))) = (.ok 0, _) from rfl)
  have hbuilt := Built.embedShort hpretend (show embedShort _ "@Path" 1 Embedded.bytesAtPath =
    (.ok 1, pretending) from rfl)
  refine ⟨hbuilt, ?_, rfl, rfl, rfl, rfl⟩
  intro index function program count hfunction hprogram hcount
  match index with
  | 0 =>
    cases hfunction
    cases hprogram
    trivial
  | 1 =>
    cases hfunction
    cases hprogram
    have hone : 1 = count := beq_iff_eq.mp hcount
    rw [← hone]
    exact Embedded.basic_bytesAtPath.asksBelow
  | index + 2 => cases hfunction

end Registry
end ByteFormula
