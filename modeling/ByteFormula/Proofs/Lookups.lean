import ByteFormula.Proofs.BaseRegistry
import ByteFormula.Proofs.Observations

/-! What an evaluation looks up. Frames, arguments and functions are looked up by number, so each
lookup may miss. A fault for a missing argument comes from a lookup that missed, unless a host
function or the surroundings made it up. -/
namespace ByteFormula

variable {σ α β : Type}

/-- What is looked up is there. -/
def Moment.Found (registry : Registry σ) (moment : Moment) : Prop :=
  match moment.lookup with
  | .frame position => position < moment.frames.size
  | .slot position index =>
    ∃ frame, moment.frames[position]? = some frame ∧ index < frame.slots.size
  | .function index => index < registry.size
  | .unreached => False

def AllFound (registry : Registry σ) (observed : List Observation) : Prop :=
  ∀ moment ∈ looks observed, moment.Found registry

section

variable {registry : Registry σ} {observed rest : List Observation}

theorem allFound_nil : AllFound registry [] := nofun

@[simp] theorem allFound_look {moment : Moment} :
    AllFound registry (.look moment :: observed) ↔
      moment.Found registry ∧ AllFound registry observed :=
  List.forall_mem_cons

@[simp] theorem allFound_happen {event : Event} :
    AllFound registry (.happen event :: observed) ↔ AllFound registry observed :=
  Iff.rfl

@[simp] theorem allFound_append :
    AllFound registry (observed ++ rest) ↔ AllFound registry observed ∧ AllFound registry rest := by
  rw [AllFound, looks_append]
  exact List.forall_mem_append

end

def Result.Spares (kind : FaultKind) (result : Result) : Prop :=
  ∀ fault, result = .error fault → fault.kind ≠ kind

namespace Host

/-- Programs that only ask for arguments that a call with `count` of them has. -/
def AsksBelow (count : Nat) : Host σ α → Prop
  | .done _ => True
  | .raise _ => True
  | .argument index next => index < count ∧ ∀ answer, (next answer).AsksBelow count
  | .arity next => (next count).AsksBelow count
  | .depth next => ∀ depth, (next depth).AsksBelow count
  | .outline next => ∀ outline, (next outline).AsksBelow count
  | .invocationPath next => ∀ path, (next path).AsksBelow count
  | .bytesAt _ next => ∀ answer, (next answer).AsksBelow count
  | .exchange _ next => ∀ state, (next state).AsksBelow count

/-- Programs that raise no fault of a kind, unless an argument or the surroundings had it. -/
def Spares (kind : FaultKind) : Host σ α → Prop
  | .done _ => True
  | .raise fault => fault.kind ≠ kind
  | .argument _ next => ∀ answer : Result, answer.Spares kind → (next answer).Spares kind
  | .arity next => ∀ count, (next count).Spares kind
  | .depth next => ∀ depth, (next depth).Spares kind
  | .outline next => ∀ outline, (next outline).Spares kind
  | .invocationPath next => ∀ path, (next path).Spares kind
  | .bytesAt _ next => ∀ answer, answer ≠ .error kind → (next answer).Spares kind
  | .exchange _ next => ∀ state, (next state).Spares kind

theorem AsksBelow.bind {count : Nat} {program : Host σ α} {next : α → Host σ β}
    (h : program.AsksBelow count) (hnext : ∀ value, (next value).AsksBelow count) :
    (program >>= next).AsksBelow count := by
  induction program with
  | done value => exact hnext value
  | raise fault => trivial
  | argument index rest ih => exact ⟨h.1, fun answer => ih answer (h.2 answer)⟩
  | arity rest ih => exact ih count h
  | depth rest ih => exact fun depth => ih depth (h depth)
  | outline rest ih => exact fun outline => ih outline (h outline)
  | invocationPath rest ih => exact fun path => ih path (h path)
  | bytesAt path rest ih => exact fun answer => ih answer (h answer)
  | exchange change rest ih => exact fun state => ih state (h state)

theorem Spares.bind {kind : FaultKind} {program : Host σ α} {next : α → Host σ β}
    (h : program.Spares kind) (hnext : ∀ value, (next value).Spares kind) :
    (program >>= next).Spares kind := by
  induction program with
  | done value => exact hnext value
  | raise fault => exact h
  | argument index rest ih => exact fun answer hanswer => ih answer (h answer hanswer)
  | arity rest ih => exact fun count => ih count (h count)
  | depth rest ih => exact fun depth => ih depth (h depth)
  | outline rest ih => exact fun outline => ih outline (h outline)
  | invocationPath rest ih => exact fun path => ih path (h path)
  | bytesAt path rest ih => exact fun answer hanswer => ih answer (h answer hanswer)
  | exchange change rest ih => exact fun state => ih state (h state)

theorem Basic.asksBelow {count : Nat} {program : Host σ α} (h : Basic count program) :
    program.AsksBelow count := by
  induction h with
  | done value => trivial
  | fail h => trivial
  | arg h =>
    refine ⟨h, fun answer => ?_⟩
    cases answer <;> trivial
  | @arity _ count next _ ih => exact ih count
  | invocationPath _ ih => exact ih
  | bytesAt path =>
    intro answer
    cases answer <;> trivial
  | bind _ _ ih ihnext => exact ih.bind ihnext

theorem Basic.spares {count : Nat} {kind : FaultKind} (hkind : kind.isOfMachine = true)
    {program : Host σ α} (h : Basic count program) : program.Spares kind := by
  induction h with
  | done value => trivial
  | @fail _ _ found h =>
    intro heq
    have hsame : found = kind := heq
    rw [hsame, hkind] at h
    cases h
  | arg h =>
    intro answer hanswer
    cases answer with
    | ok value => trivial
    | error fault => exact hanswer fault rfl
  | arity _ ih => exact ih
  | invocationPath _ ih => exact ih
  | bytesAt path =>
    intro answer hanswer
    cases answer with
    | ok bytes => trivial
    | error found =>
      intro heq
      exact hanswer (congrArg Except.error heq)
  | bind _ _ ih ihnext => exact ih.bind ihnext

end Host

def Surroundings.Spares (kind : FaultKind) (surroundings : Surroundings σ) : Prop :=
  ∀ path state, (surroundings.bytesAt path state).1 ≠ .error kind

theorem Surroundings.spares_ofTree {kind : FaultKind} (hkind : kind.isOfMachine = true)
    (path : Option Path) : (Surroundings.ofTree path).Spares kind := by
  intro place tree
  unfold Surroundings.ofTree
  simp only
  split
  · nofun
  · rintro ⟨⟩
    cases hkind

namespace Machine

variable {registry : Registry σ} {index count : Nat}

def SparesFound (registry : Registry σ) (kind : FaultKind) (enter : Enter σ) (entered : Observed σ) :
    Prop :=
  ∀ ⦃function args scope machine⦄, AllFound registry (entered function args scope machine) →
    Result.Spares kind (enter function args scope machine).1

theorem evaluate_spares {enter : Enter σ} {entered : Observed σ}
    (henter : SparesFound registry (.argumentOutOfBounds index count) enter entered)
    {reach scope : Nat} {formula : Formula} {machine : Machine σ}
    (hfound : AllFound registry (observeEvaluate enter entered reach scope formula machine)) :
    Result.Spares (.argumentOutOfBounds index count)
      (evaluate enter reach scope formula machine).1 := by
  induction reach generalizing scope formula machine with
  | zero =>
    cases formula with
    | data bytes => nofun
    | call function args => exact henter hfound
    | argument asked => exact (allFound_look.mp hfound).1.elim
  | succ reach ih =>
    cases formula with
    | data bytes => nofun
    | call function args => exact henter hfound
    | argument asked =>
      rw [observeEvaluate, allFound_look] at hfound
      rw [evaluate]
      cases hframe : machine.frames[scope]? with
      | none =>
        rintro _ ⟨⟩
        nofun
      | some frame =>
        simp only [hframe, allFound_look] at hfound
        obtain ⟨-, hslot, hrest⟩ := hfound
        simp only
        cases hkept : frame.slots[asked]? with
        | none =>
          -- The lookup of the argument found it.
          obtain ⟨found, hfound, hlt⟩ := hslot
          cases hfound.symm.trans hframe
          exact absurd (Array.getElem?_eq_none_iff.mp hkept) (Nat.not_le_of_lt hlt)
        | some slot =>
          obtain ⟨formula, value⟩ := slot
          cases value with
          | some value => nofun
          | none =>
            simp only [hkept, List.cons_append, allFound_happen, allFound_append] at hrest
            have hinner := ih hrest.1
            simp only
            split
            · rename_i heq
              rw [heq] at hinner
              exact hinner
            · nofun

private theorem serve_spares {desk : Desk σ} {asked : Nat → Machine σ → List Observation}
    {kind : FaultKind} (hsurroundings : desk.surroundings.Spares kind)
    (hargument : ∀ {index machine}, AllFound registry (asked index machine) →
      Result.Spares kind (desk.argument index machine).1)
    {program : Host σ Bytes} (hprogram : program.Spares kind) {machine : Machine σ}
    (hfound : AllFound registry (observeServe desk asked program machine)) :
    Result.Spares kind (serve desk program machine).1 := by
  induction program generalizing machine with
  | done value => nofun
  | raise fault =>
    rintro _ ⟨⟩
    exact hprogram
  | argument index next ih =>
    rw [observeServe, List.cons_append, allFound_happen, allFound_append] at hfound
    exact ih _ (hprogram _ (hargument hfound.1)) hfound.2
  | arity next ih => exact ih _ (hprogram _) hfound
  | depth next ih => exact ih _ (hprogram _) hfound
  | outline next ih => exact ih _ (hprogram _) hfound
  | invocationPath next ih => exact ih _ (hprogram _) hfound
  | bytesAt path next ih => exact ih _ (hprogram _ (hsurroundings path machine.state)) hfound
  | exchange change next ih => exact ih _ (hprogram _) hfound

private theorem runBody_spares {surroundings : Surroundings σ} {enter : Enter σ}
    {entered : Observed σ}
    (henter : SparesFound registry (.argumentOutOfBounds index count) enter entered)
    (hsurroundings : surroundings.Spares (.argumentOutOfBounds index count))
    {function : Function σ}
    (hprogram : ∀ program, function.body.program? = some program →
      program.Spares (.argumentOutOfBounds index count))
    {arity own : Nat} {machine : Machine σ}
    (hfound : AllFound registry
      (observeBody registry surroundings enter entered function arity own machine)) :
    Result.Spares (.argumentOutOfBounds index count)
      (runBody registry surroundings enter function arity own machine).1 := by
  cases hhost : function.body.program? with
  | some program =>
    obtain ⟨hrun, hobserved⟩ :=
      runBody_host registry surroundings enter entered hhost arity own machine
    rw [hobserved] at hfound
    rw [hrun]
    exact serve_spares hsurroundings (evaluate_spares henter) (hprogram program hhost) hfound
  | none =>
    obtain ⟨formula, bytecode, hbody⟩ := Body.defined_of_program? hhost
    simp only [observeBody, hbody] at hfound
    simp only [runBody, hbody]
    exact evaluate_spares henter hfound

/-- What a call looks up decides whether an argument is found missing in it. -/
theorem call_spares {surroundings : Surroundings σ}
    (hsurroundings : surroundings.Spares (.argumentOutOfBounds index count))
    (hhosts : registry.Hosts (Host.Spares (.argumentOutOfBounds index count))) (room : Nat) :
    SparesFound registry (.argumentOutOfBounds index count) (call registry surroundings room)
      (observeCall registry surroundings room) := by
  induction room with
  | zero =>
    intro function args scope machine hfound
    rw [call]
    split
    · rintro _ ⟨⟩ habsurd
      cases habsurd
    · rintro _ ⟨⟩ habsurd
      cases habsurd
  | succ room ih =>
    intro asked args scope machine hfound
    rw [observeCall, allFound_look] at hfound
    rw [call]
    cases hfunction : registry.function? asked with
    | none =>
      rintro _ ⟨⟩ habsurd
      cases habsurd
    | some function =>
      simp only [hfunction, List.cons_append, allFound_happen, allFound_append] at hfound
      have hbody := runBody_spares ih hsurroundings
        (fun program hprogram => hhosts hfunction hprogram) hfound.2.1
      simp only
      split
      · intro _ habsurd
        cases habsurd
      · rename_i heq
        rw [heq] at hbody
        rintro _ ⟨⟩
        rw [Fault.kind_within]
        exact hbody _ rfl

end Machine
end ByteFormula
