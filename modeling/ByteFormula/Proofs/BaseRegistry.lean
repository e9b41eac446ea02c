import ByteFormula.Primitive.Base
import ByteFormula.Proofs.Meaning

/-! The embedded functions and the base definitions. The base registry is built like any other, and
its host functions ask for nothing but their arguments and the world, pass on the faults of their
arguments and leave the path of a fault to the evaluation. -/
namespace ByteFormula

variable {σ α β : Type}

/-- Faults that the machine raises itself, without the help of host functions or data. -/
def FaultKind.isOfMachine : FaultKind → Bool
  | .argumentOutOfBounds _ _ | .stackOverflow _ | .noFunction _ | .noFrame _ => true
  | _ => false

namespace Host

structure Plain (program : Host σ α) : Prop where
  pure : program.Pure
  unplaced : program.Unplaced

theorem Pure.bind {program : Host σ α} {next : α → Host σ β} (h : program.Pure)
    (hnext : ∀ value, (next value).Pure) : (program >>= next).Pure := by
  induction h with
  | done value => exact hnext value
  | raise fault => exact .raise fault
  | argument hfault _ ih =>
    refine .argument (fun fault => ?_) ih
    rw [hfault]
    rfl
  | arity _ ih => exact .arity ih
  | invocationPath _ ih => exact .invocationPath ih
  | bytesAt _ ih => exact .bytesAt ih

theorem Unplaced.bind {program : Host σ α} {next : α → Host σ β} (h : program.Unplaced)
    (hnext : ∀ value, (next value).Unplaced) : (program >>= next).Unplaced := by
  induction program with
  | done value => exact hnext value
  | raise fault => exact h
  | argument index rest ih => exact fun value => ih _ (h value)
  | arity rest ih => exact fun count => ih _ (h count)
  | depth rest ih => exact fun count => ih _ (h count)
  | outline rest ih => exact fun outline => ih _ (h outline)
  | invocationPath rest ih => exact fun path => ih _ (h path)
  | bytesAt path rest ih => exact fun answer => ih _ (h answer)
  | exchange change rest ih => exact fun state => ih _ (h state)

/-- Programs made of values, faults of their own and requests that they pass on: for arguments below
`count`, for their number, and for the world. -/
inductive Basic {σ : Type} : (count : Nat) → {α : Type} → Host σ α → Prop where
  | done {α : Type} {count : Nat} (value : α) : Basic count (.done value : Host σ α)
  | fail {α : Type} {count : Nat} {kind : FaultKind} (h : kind.isOfMachine = false) :
      Basic count (Host.fail kind : Host σ α)
  | arg {count index : Nat} (h : index < count) : Basic count (Host.arg index)
  | arity {α : Type} {count : Nat} {next : Nat → Host σ α} (h : ∀ n, Basic n (next n)) :
      Basic count (.arity next)
  | invocationPath {α : Type} {count : Nat} {next : Option Path → Host σ α}
      (h : ∀ path, Basic count (next path)) : Basic count (.invocationPath next)
  | bytesAt {count : Nat} (path : Path) : Basic count (.bytesAt path .lift)
  | bind {α β : Type} {count : Nat} {program : Host σ α} {next : α → Host σ β}
      (h : Basic count program) (hnext : ∀ value, Basic count (next value)) :
      Basic count (program >>= next)

namespace Basic

variable {count : Nat}

theorem plain {program : Host σ α} (h : Basic count program) : program.Plain := by
  induction h with
  | done value => exact ⟨.done value, trivial⟩
  | fail h => exact ⟨.raise _, rfl⟩
  | arg h => exact ⟨.argument (fun _ => rfl) .done, fun _ => trivial⟩
  | arity _ ih => exact ⟨.arity fun n => (ih n).pure, fun n => (ih n).unplaced⟩
  | invocationPath _ ih =>
    exact ⟨.invocationPath fun path => (ih path).pure, fun path => (ih path).unplaced⟩
  | bytesAt path =>
    refine ⟨.bytesAt fun answer => ?_, fun answer => ?_⟩
    · cases answer with
      | ok bytes => exact .done bytes
      | error kind => exact .raise _
    · cases answer <;> trivial
  | bind _ _ ih ihnext =>
    exact ⟨ih.pure.bind fun value => (ihnext value).pure,
      ih.unplaced.bind fun value => (ihnext value).unplaced⟩

theorem lift {result : Except FaultKind α}
    (h : ∀ kind, result = .error kind → kind.isOfMachine = false) :
    Basic count (Host.lift result : Host σ α) := by
  cases result with
  | ok value => exact .done value
  | error kind => exact .fail (h kind rfl)

theorem argIsTrue {index : Nat} (h : index < count) :
    Basic count (Host.argIsTrue index : Host σ Bool) :=
  (arg h).bind fun value => .done (!value.isEmpty)

theorem argsFrom {first n : Nat} (h : first + n ≤ count) :
    Basic count (Host.argsFrom first n : Host σ (List Bytes)) := by
  induction n generalizing first with
  | zero => exact .done []
  | succ n ih =>
    refine (arg (by omega)).bind fun value => ?_
    exact (ih (by omega)).bind fun rest => .done (value :: rest)

theorem allArgs : Basic count (Host.allArgs : Host σ (List Bytes)) :=
  .arity fun n => argsFrom (Nat.le_of_eq (Nat.zero_add n))

end Basic
end Host

def Ordinary (result : Except FaultKind α) : Prop :=
  ∀ kind, result = .error kind → kind.isOfMachine = false

private theorem ordinary_ok (value : α) : Ordinary (.ok value) := nofun

private theorem ordinary_error {kind : FaultKind} (h : kind.isOfMachine = false) :
    Ordinary (.error kind : Except FaultKind α) := by
  rintro _ ⟨⟩
  exact h

namespace Arithmetic

private theorem ordinary_fixed (width : Nat) (data : Bytes) : Ordinary (fixed width data) := by
  unfold fixed
  split
  · exact ordinary_ok _
  · exact ordinary_error rfl

private theorem ordinary_upTo8 (data : Bytes) : Ordinary (upTo8 data) := by
  unfold upTo8
  split
  · exact ordinary_error rfl
  · exact ordinary_ok _

private theorem ordinary_binary {operand : Bytes → Except FaultKind Nat}
    {op : Nat → Nat → Except FaultKind Bytes} (hoperand : ∀ data, Ordinary (operand data))
    (hop : ∀ x y, Ordinary (op x y)) (a b : Bytes) : Ordinary (binary operand op a b) := by
  unfold binary
  split
  · rename_i hfirst
    exact ordinary_error (hoperand a _ hfirst)
  split
  · rename_i hsecond
    exact ordinary_error (hoperand b _ hsecond)
  · exact hop _ _

private theorem ordinary_sumOf (width a b : Nat) : Ordinary (sumOf width a b) := by
  unfold sumOf
  split
  · exact ordinary_ok _
  · exact ordinary_error rfl

private theorem ordinary_differenceOf (width a b : Nat) : Ordinary (differenceOf width a b) := by
  unfold differenceOf
  split
  · exact ordinary_ok _
  · exact ordinary_error rfl

private theorem ordinary_productOf (width a b : Nat) : Ordinary (productOf width a b) := by
  unfold productOf
  split
  · exact ordinary_ok _
  · exact ordinary_error rfl

private theorem ordinary_quotientOf (width a b : Nat) : Ordinary (quotientOf width a b) := by
  unfold quotientOf
  split
  · exact ordinary_error rfl
  · exact ordinary_ok _

private theorem ordinary_remainderOf (width a b : Nat) : Ordinary (remainderOf width a b) := by
  unfold remainderOf
  split
  · exact ordinary_error rfl
  · exact ordinary_ok _

private theorem ordinary_widen (data : Bytes) : Ordinary (widen data) := by
  unfold widen
  split
  · rename_i hdata
    exact ordinary_error (ordinary_upTo8 data _ hdata)
  · exact ordinary_ok _

private theorem ordinary_lessThan (a b : Bytes) : Ordinary (lessThan a b) := by
  unfold lessThan
  split
  · exact ordinary_ok _
  · exact ordinary_error rfl

private theorem ordinary_bytewise (op : UInt8 → UInt8 → UInt8) (a b : Bytes) :
    Ordinary (bytewise op a b) := by
  unfold bytewise
  split
  · exact ordinary_ok _
  · exact ordinary_error rfl

private theorem ordinary_shift (op : Nat → Nat → Nat) (word count : Bytes) :
    Ordinary (shift op word count) := by
  unfold shift
  split
  · rename_i hword
    exact ordinary_error (ordinary_fixed 8 word _ hword)
  split
  · rename_i hcount
    exact ordinary_error (ordinary_upTo8 count _ hcount)
  · exact ordinary_ok _

end Arithmetic

namespace Embedded

open Host (Basic)

variable {count : Nat}

private theorem basic_byteOperand (data : Bytes) : Basic count (byteOperand data : Host σ Nat) :=
  .lift (Arithmetic.ordinary_fixed 1 data)

private theorem basic_unary {f : Bytes → Except FaultKind Bytes} (h : ∀ a, Ordinary (f a)) :
    Basic 1 (unary f : Host σ Bytes) :=
  (Basic.arg (by decide)).bind fun a => .lift (h a)

private theorem basic_binary {f : Bytes → Bytes → Except FaultKind Bytes}
    (h : ∀ a b, Ordinary (f a b)) : Basic 2 (binary f : Host σ Bytes) :=
  (Basic.arg (by decide)).bind fun a => (Basic.arg (by decide)).bind fun b => .lift (h a b)

private theorem basic_ofAll (f : Bytes → Bytes) : Basic count (ofAll f : Host σ Bytes) :=
  Basic.allArgs.bind fun values => .done (f values.flatten)

private theorem basic_fail : Basic 1 (fail : Host σ Bytes) :=
  (Basic.arg (by decide)).bind fun _ => .fail rfl

private theorem basic_slice : Basic 3 (slice : Host σ Bytes) := by
  refine (Basic.arg (by decide)).bind fun data => (Basic.arg (by decide)).bind fun a =>
    (basic_byteOperand a).bind fun first => (Basic.arg (by decide)).bind fun b =>
    (basic_byteOperand b).bind fun last => ?_
  split
  · exact .fail rfl
  split
  · exact .fail rfl
  · exact .done _

private theorem basic_byte : Basic 2 (byte : Host σ Bytes) := by
  refine (Basic.arg (by decide)).bind fun data => (Basic.arg (by decide)).bind fun a =>
    (basic_byteOperand a).bind fun index => ?_
  split
  · exact .done _
  · exact .fail rfl

private theorem basic_tail : Basic 2 (tail : Host σ Bytes) := by
  refine (Basic.arg (by decide)).bind fun data => (Basic.arg (by decide)).bind fun a =>
    (basic_byteOperand a).bind fun first => ?_
  split
  · exact .fail rfl
  · exact .done _

private theorem basic_choose : Basic 3 (choose : Host σ Bytes) := by
  refine (Basic.argIsTrue (by decide)).bind fun holds => ?_
  split
  · exact .arg (by decide)
  · exact .arg (by decide)

private theorem basic_validSignature : Basic 3 (validSignature : Host σ Bytes) := by
  refine (Basic.arg (by decide)).bind fun message => (Basic.arg (by decide)).bind fun signature =>
    (Basic.arg (by decide)).bind fun key => ?_
  split
  · exact .done _
  · exact .fail rfl

private theorem basic_invocationPath : Basic count (invocationPath : Host σ Bytes) := by
  refine .invocationPath fun path => ?_
  cases path with
  | none => exact .fail rfl
  | some path => exact .done path

theorem basic_bytesAtPath : Basic 1 (bytesAtPath : Host σ Bytes) :=
  (Basic.arg (by decide)).bind fun path => .bytesAt path

private theorem ordinary_ofData (result : Except DataError α) : Ordinary (ofData result) := by
  cases result with
  | ok value => exact ordinary_ok value
  | error e => exact ordinary_error rfl

private theorem basic_arrayElement : Basic 2 (arrayElement : Host σ Bytes) :=
  (Basic.arg (by decide)).bind fun _ => (Basic.arg (by decide)).bind fun a =>
    (basic_byteOperand a).bind fun _ => .lift (ordinary_ofData _)

private theorem ordinary_lengthIn (width : Nat) (data : Bytes) :
    Ordinary (lengthIn width data) := by
  unfold lengthIn
  split
  · exact ordinary_ok _
  · exact ordinary_error rfl

private theorem ordinary_arrayLength (raw : Bytes) : Ordinary (arrayLength raw) := by
  unfold arrayLength
  split
  · exact ordinary_error rfl
  split
  · exact ordinary_ok _
  · exact ordinary_error rfl

private theorem ordinary_truth_lessThan (a b : Bytes) :
    Ordinary ((Arithmetic.lessThan a b).map truth) := by
  cases hless : Arithmetic.lessThan a b with
  | ok holds => exact ordinary_ok _
  | error kind => exact ordinary_error (Arithmetic.ordinary_lessThan a b kind hless)

private theorem basic_allTrue {first n : Nat} (h : first + n ≤ count) :
    Basic count (allTrue first n : Host σ Bool) := by
  induction n generalizing first with
  | zero => exact .done true
  | succ n ih =>
    refine (Basic.argIsTrue (by omega)).bind fun holds => ?_
    split
    · exact ih (by omega)
    · exact .done false

private theorem basic_anyTrue {first n : Nat} (h : first + n ≤ count) :
    Basic count (anyTrue first n : Host σ Bool) := by
  induction n generalizing first with
  | zero => exact .done false
  | succ n ih =>
    refine (Basic.argIsTrue (by omega)).bind fun holds => ?_
    split
    · exact .done true
    · exact ih (by omega)

private theorem basic_conjunction : Basic count (conjunction : Host σ Bytes) :=
  .arity fun n => (basic_allTrue (Nat.le_of_eq (Nat.zero_add n))).bind fun _ => .done _

private theorem basic_disjunction : Basic count (disjunction : Host σ Bytes) :=
  .arity fun n => (basic_anyTrue (Nat.le_of_eq (Nat.zero_add n))).bind fun _ => .done _

theorem basic_shortTable : ∀ entry ∈ (shortTable : List (String × Nat × Host σ Bytes)),
    Basic entry.2.1 entry.2.2 := by
  simp only [shortTable, List.forall_mem_cons, List.not_mem_nil, false_implies, implies_true,
    basic_fail, basic_slice, basic_byte, basic_tail, basic_choose, basic_validSignature,
    basic_invocationPath, basic_bytesAtPath, basic_arrayElement, basic_unary, basic_binary,
    ordinary_ok, ordinary_lengthIn, ordinary_arrayLength, ordinary_truth_lessThan,
    Arithmetic.sum, Arithmetic.difference, Arithmetic.product, Arithmetic.ordinary_binary,
    Arithmetic.ordinary_fixed, Arithmetic.ordinary_sumOf, Arithmetic.ordinary_differenceOf,
    Arithmetic.ordinary_productOf, and_true]

/-- Functions that are called by two bytes ask for no more than what their arity promises. -/
theorem basic_longTable : ∀ entry ∈ (longTable : List (String × Arity × Host σ Bytes)),
    ∀ n, entry.2.1.accepts n = true → Basic n entry.2.2 := by
  simp only [longTable, List.forall_mem_cons, List.not_mem_nil, false_implies, implies_true,
    Arity.accepts, beq_iff_eq, forall_eq', basic_ofAll, basic_conjunction, basic_disjunction,
    basic_unary, basic_binary, ordinary_ok, Arithmetic.ordinary_bytewise,
    Arithmetic.ordinary_widen, Arithmetic.shiftLeft, Arithmetic.shiftRight,
    Arithmetic.ordinary_shift, Arithmetic.add, Arithmetic.sub, Arithmetic.mul, Arithmetic.div,
    Arithmetic.mod, Arithmetic.ordinary_binary, Arithmetic.ordinary_upTo8,
    Arithmetic.ordinary_sumOf, Arithmetic.ordinary_differenceOf, Arithmetic.ordinary_productOf,
    Arithmetic.ordinary_quotientOf, Arithmetic.ordinary_remainderOf, and_true]

/-- What every registration of a table keeps, the table keeps. -/
theorem addShort_induction {P : Registry σ → Prop} {table : List (String × Nat × Host σ Bytes)}
    (hadd : ∀ {registry after index}, ∀ entry ∈ table, P registry →
      registry.embedShort entry.1 entry.2.1 entry.2.2 = (.ok index, after) → P after)
    {registry after : Registry σ} (h : P registry) (hok : addShort registry table = .ok after) :
    P after := by
  induction table generalizing registry with
  | nil =>
    cases hok
    exact h
  | cons entry rest ih =>
    unfold addShort at hok
    split at hok
    · cases hok
    · rename_i hone
      have hnext := hadd entry List.mem_cons_self h hone
      exact ih (fun e he => hadd e (List.mem_cons_of_mem _ he)) hnext hok

private theorem addLong_induction {P : Registry σ → Prop}
    {table : List (String × Arity × Host σ Bytes)}
    (hadd : ∀ {registry after index}, ∀ entry ∈ table, P registry →
      registry.embedLong entry.1 entry.2.1 entry.2.2 = (.ok index, after) → P after)
    {registry after : Registry σ} (h : P registry) (hok : addLong registry table = .ok after) :
    P after := by
  induction table generalizing registry with
  | nil =>
    cases hok
    exact h
  | cons entry rest ih =>
    unfold addLong at hok
    split at hok
    · cases hok
    · rename_i hone
      have hnext := hadd entry List.mem_cons_self h hone
      exact ih (fun e he => hadd e (List.mem_cons_of_mem _ he)) hnext hok

end Embedded

namespace Registry

/-- A condition on the programs of all host functions of a registry, with the numbers of arguments
that they may be called with. -/
def HostsAt (registry : Registry σ) (condition : Nat → Host σ Bytes → Prop) : Prop :=
  ∀ ⦃index function program count⦄, registry.function? index = some function →
    function.body.program? = some program → function.arity.accepts count = true →
    condition count program

theorem exists_accepts (arity : Arity) : ∃ count, arity.accepts count = true := by
  cases arity with
  | fixed expected => exact ⟨expected, beq_self_eq_true expected⟩
  | variadic => exact ⟨0, rfl⟩

section

variable {registry after : Registry σ} {condition : Nat → Host σ Bytes → Prop}

theorem HostsAt.hosts {always : Host σ Bytes → Prop} (h : registry.HostsAt condition)
    (himp : ∀ {count program}, condition count program → always program) :
    registry.Hosts always := by
  intro index function program hfunction hprogram
  obtain ⟨count, hcount⟩ := exists_accepts function.arity
  exact himp (h hfunction hprogram hcount)

theorem HostsAt.insert {symbol : String} {arity : Arity} {body : Body σ}
    {source : Option String} {index : Nat} (h : registry.HostsAt condition)
    (hbody : ∀ program count, body.program? = some program → arity.accepts count = true →
      condition count program)
    (hok : registry.insert symbol arity body source = (.ok index, after)) :
    after.HostsAt condition := by
  obtain ⟨-, -, -, rfl⟩ := insert_ok hok
  intro index function program count hfunction hprogram hcount
  rw [function?_push] at hfunction
  split at hfunction
  · cases hfunction
    exact hbody program count hprogram hcount
  · exact h hfunction hprogram hcount

/-- Definitions leave the host functions alone. -/
theorem HostsAt.define {symbol source : String} {arity index : Nat} {formula : Formula}
    (h : registry.HostsAt condition)
    (hok : registry.define symbol arity formula source = (.ok index, after)) :
    after.HostsAt condition := by
  obtain ⟨body, bytecode, -, hinsert⟩ := define_inserts hok
  refine h.insert (fun program count hprogram => ?_) hinsert
  cases hprogram

/-- The embedded functions are registered table by table. -/
theorem embedded_ok (hok : embedded = .ok registry) :
    ∃ shorts, Embedded.addShort empty Embedded.shortTable = .ok shorts ∧
      Embedded.addLong shorts Embedded.longTable = .ok registry := by
  -- The definition is opened as a function of the type. Opened for one type, it would be run to see
  -- that both sides are the same.
  have hopened : @embedded = @embedded := rfl
  conv at hopened =>
    rhs
    delta embedded
  rw [hopened] at hok
  dsimp only at hok
  generalize Embedded.addShort empty Embedded.shortTable = result at hok
  cases result with
  | error e => cases hok
  | ok shorts => exact ⟨shorts, rfl, hok⟩

/-- What holds without functions and is kept by the registration of each embedded function holds
with all of them. -/
theorem embedded_induction {P : Registry σ → Prop} (hempty : P empty)
    (hshort : ∀ {before after index}, ∀ entry ∈ Embedded.shortTable, P before →
      before.embedShort entry.1 entry.2.1 entry.2.2 = (.ok index, after) → P after)
    (hlong : ∀ {before after index}, ∀ entry ∈ Embedded.longTable, P before →
      before.embedLong entry.1 entry.2.1 entry.2.2 = (.ok index, after) → P after)
    (hok : embedded = .ok registry) : P registry := by
  obtain ⟨shorts, hshorts, hlongs⟩ := embedded_ok hok
  exact Embedded.addLong_induction hlong (Embedded.addShort_induction hshort hempty hshorts) hlongs

theorem embedded_basic (hok : embedded = .ok registry) :
    Built registry ∧ registry.HostsAt fun count program => program.Basic count := by
  refine embedded_induction
    (P := fun r => Built r ∧ r.HostsAt fun count program => program.Basic count)
    ⟨.empty, ?_⟩ ?_ ?_ hok
  · intro index function program count hfunction
    simp [function?, empty] at hfunction
  · intro before after index entry hentry h hone
    refine ⟨.embedShort h.1 hone, h.2.insert (fun program count hprogram hcount => ?_) hone⟩
    cases hprogram
    rw [← beq_iff_eq.mp hcount]
    exact Embedded.basic_shortTable entry hentry
  · intro before after index entry hentry h hone
    refine ⟨.embedLong h.1 hone, h.2.insert (fun program count hprogram hcount => ?_) hone⟩
    cases hprogram
    exact Embedded.basic_longTable entry hentry count hcount

/-- The base definitions are registered on top of the embedded functions. -/
theorem base_ok (hok : base = .ok registry) :
    ∃ start indices, embedded = .ok start ∧
      start.extendAll baseDefinitions = (.ok indices, registry) := by
  -- As above, the definition is not opened for one type.
  have hopened : @base = @base := rfl
  conv at hopened =>
    rhs
    delta base
  rw [hopened] at hok
  dsimp only at hok
  generalize embedded = result at hok
  cases result with
  | error e => cases hok
  | ok start =>
    simp only at hok
    generalize hall : start.extendAll baseDefinitions = outcome at hok
    obtain ⟨outcome, after⟩ := outcome
    cases outcome with
    | error e => cases hok
    | ok indices =>
      cases hok
      exact ⟨start, indices, rfl, hall⟩

/-- The base registry is built by registrations, and its host functions are basic. -/
theorem base_basic (hok : base = .ok registry) :
    Built registry ∧ registry.HostsAt fun count program => program.Basic count := by
  obtain ⟨start, indices, hstart, hall⟩ := base_ok hok
  obtain ⟨hbuilt, hbasic⟩ := embedded_basic hstart
  have hhosts : (start.extendAll baseDefinitions).2.HostsAt fun count program =>
      program.Basic count := by
    refine extendAll_induction (P := fun r => r.HostsAt fun count program => program.Basic count)
      (fun d _ h hone => ?_) hbasic
    obtain ⟨arity, formula, -, -, hok⟩ := extendOne_ok hone
    exact h.define hok
  rw [hall] at hhosts
  exact ⟨hbuilt.extendAll hall, hhosts⟩

end

/-- None of the embedded functions and the base definitions gets in the way of another. -/
theorem exists_base : ∃ registry : Registry Tree, base = .ok registry := by
  have hok (result : Except Error (Registry Tree)) (h : result.isOk = true) :
      ∃ registry, result = .ok registry := by
    cases result with
    | error e => cases h
    | ok registry => exact ⟨registry, rfl⟩
  exact hok base (by decide +kernel)

theorem exists_embedded : ∃ registry : Registry Tree, embedded = .ok registry := by
  obtain ⟨registry, hbase⟩ := exists_base
  obtain ⟨start, -, hstart, -⟩ := base_ok hbase
  exact ⟨start, hstart⟩

theorem trio_basic : (trio : Registry σ).HostsAt fun count program => program.Basic count := by
  intro index function program count hfunction hprogram hcount
  match index with
  | 0 =>
    cases hfunction
    cases hprogram
    rw [← beq_iff_eq.mp hcount]
    exact (Host.Basic.argIsTrue (by decide)).bind fun _ => .done _
  | 1 =>
    cases hfunction
    cases hprogram
    exact .arity fun _ => .done _
  | 2 =>
    cases hfunction
    cases hprogram
  | index + 3 => cases hfunction

end Registry
end ByteFormula
