import ByteFormula.Proofs.Applications
import ByteFormula.Proofs.Packing

/-! Arithmetic by the embedded functions. Operands are unsigned big-endian numbers, and so are
results. A function gives the exact number in its own width, or a fault that says which operand has
a wrong length or which bound the number passes. -/
namespace ByteFormula

namespace Bytes

private theorem capacity_pos (width : Nat) : 0 < capacity width := by
  induction width with
  | zero => exact Nat.one_pos
  | succ width ih => exact Nat.mul_pos (by decide) ih

private theorem capacity_add (left right : Nat) :
    capacity (left + right) = capacity left * capacity right := by
  induction right with
  | zero => exact (Nat.mul_one _).symm
  | succ right ih => rw [← Nat.add_assoc, capacity, capacity, ih, Nat.mul_left_comm]

private theorem capacity_mono {width wider : Nat} (h : width ≤ wider) :
    capacity width ≤ capacity wider := by
  obtain ⟨more, rfl⟩ := Nat.exists_eq_add_of_le h
  rw [capacity_add]
  exact Nat.le_mul_of_pos_right _ (capacity_pos more)

private theorem capacity_word : capacity 8 = Nat.pow 2 64 := by decide

end Bytes

inductive Operand where
  | exactly (width : Nat)
  | upTo (width : Nat)

namespace Operand

def width : Operand → Nat
  | .exactly width | .upTo width => width

def Takes : Operand → Bytes → Prop
  | .exactly width, data => data.length = width
  | .upTo width, data => data.length ≤ width

instance : (operand : Operand) → (data : Bytes) → Decidable (operand.Takes data)
  | .exactly width, data => inferInstanceAs (Decidable (data.length = width))
  | .upTo width, data => inferInstanceAs (Decidable (data.length ≤ width))

def fault : Operand → Bytes → FaultKind
  | .exactly width, data => .wrongOperandLength width data.length
  | .upTo width, data => .operandTooLong width data.length

/-- An operand is read as its number, if it is taken. -/
structure ReadBy (operand : Operand) (read : Bytes → Except FaultKind Nat) : Prop where
  taken {data : Bytes} : operand.Takes data → read data = .ok data.toNat
  refused {data : Bytes} : ¬ operand.Takes data → read data = .error (operand.fault data)

private theorem readBy_fixed (width : Nat) : (exactly width).ReadBy (Arithmetic.fixed width) :=
  ⟨fun h => if_pos h, fun h => if_neg h⟩

private theorem readBy_upTo8 : (upTo 8).ReadBy Arithmetic.upTo8 :=
  ⟨fun h => if_neg (Nat.not_lt.mpr h), fun h => if_pos (Nat.not_le.mp h)⟩

theorem Takes.toNat_lt {operand : Operand} {data : Bytes} (h : operand.Takes data) :
    data.toNat < Bytes.capacity operand.width := by
  have hlength : data.length ≤ operand.width := by
    cases operand with
    | exactly width => exact Nat.le_of_eq h
    | upTo width => exact h
  exact Nat.lt_of_lt_of_le data.toNat_lt_capacity (Bytes.capacity_mono hlength)

end Operand

/-- A function of two numbers: the operands that it takes, the number that it gives in `output`
bytes, and its fault if there is no room for that. -/
structure IntegerFunction where
  symbol : String
  operand : Operand
  output : Nat
  value : Int → Int → Int
  beyond : FaultKind

namespace IntegerFunction

def sum (symbol : String) (operand : Operand) (output : Nat) : IntegerFunction :=
  ⟨symbol, operand, output, fun x y => x + y, .overflow⟩

def difference (symbol : String) (operand : Operand) (output : Nat) : IntegerFunction :=
  ⟨symbol, operand, output, fun x y => x - y, .underflow⟩

def product (symbol : String) (operand : Operand) (output : Nat) : IntegerFunction :=
  ⟨symbol, operand, output, fun x y => x * y, .overflow⟩

def all : List IntegerFunction :=
  [sum "sum8" (.exactly 1) 1,
   sum "sum8_16" (.exactly 1) 2,
   sum "sum16" (.exactly 2) 2,
   sum "sum16_32" (.exactly 2) 4,
   sum "sum32" (.exactly 4) 4,
   sum "sum32_64" (.exactly 4) 8,
   sum "sum64" (.exactly 8) 8,
   difference "sub8" (.exactly 1) 1,
   difference "sub16" (.exactly 2) 2,
   difference "sub32" (.exactly 4) 4,
   difference "sub64" (.exactly 8) 8,
   product "mul8" (.exactly 1) 2,
   product "mul16" (.exactly 2) 4,
   sum "add" (.upTo 8) 8,
   difference "sub" (.upTo 8) 8,
   product "mul" (.upTo 8) 8]

def InRange (f : IntegerFunction) (x y : Nat) : Prop :=
  0 ≤ f.value x y ∧ f.value x y < Bytes.capacity f.output

/-- An operation gives the number of a function if there is room for it, and its fault otherwise. If
the results are wider than the operands, there always is. -/
structure Implements (f : IntegerFunction) (op : Nat → Nat → Except FaultKind Bytes) (x y : Nat) :
    Prop where
  inside : f.InRange x y → ∃ n : Nat, n = f.value x y ∧ op x y = .ok (Bytes.ofNat f.output n)
  outside : ¬ f.InRange x y → op x y = .error f.beyond
  widening : f.operand.width < f.output → f.InRange x y

section

variable {symbol : String} {operand : Operand} {output x y : Nat}

/-- Functions that can only give too large a number. -/
theorem implements_of_natural {f : IntegerFunction} {op : Nat → Nat → Except FaultKind Bytes}
    {n : Nat} (hvalue : f.value x y = n)
    (hop : op x y =
      if n < Bytes.capacity f.output then .ok (Bytes.ofNat f.output n) else .error f.beyond)
    (hwide : f.operand.width < f.output → n < Bytes.capacity f.output) : f.Implements op x y := by
  have hrange : f.InRange x y ↔ n < Bytes.capacity f.output := by
    rw [InRange, hvalue]
    omega
  refine ⟨fun hroom => ⟨n, hvalue.symm, ?_⟩, fun hroom => ?_, fun hless => hrange.mpr (hwide hless)⟩
  · rw [hop, if_pos (hrange.mp hroom)]
  · rw [hop, if_neg (mt hrange.mpr hroom)]

private theorem implements_sum (hx : x < Bytes.capacity operand.width)
    (hy : y < Bytes.capacity operand.width) :
    (sum symbol operand output).Implements (Arithmetic.sumOf output) x y := by
  refine implements_of_natural (n := x + y) rfl rfl fun hwide => ?_
  have hmore : 256 * Bytes.capacity operand.width ≤ Bytes.capacity output :=
    Bytes.capacity_mono hwide
  show x + y < Bytes.capacity output
  omega

private theorem implements_product (hx : x < Bytes.capacity operand.width)
    (hy : y < Bytes.capacity operand.width)
    (hwidth : operand.width < output → operand.width + operand.width ≤ output) :
    (product symbol operand output).Implements (Arithmetic.productOf output) x y := by
  refine implements_of_natural (n := x * y) rfl rfl fun hwide => ?_
  calc
    x * y < Bytes.capacity operand.width * Bytes.capacity operand.width := Nat.mul_lt_mul'' hx hy
    _ = Bytes.capacity (operand.width + operand.width) := (Bytes.capacity_add _ _).symm
    _ ≤ Bytes.capacity output := Bytes.capacity_mono (hwidth hwide)

private theorem implements_difference (hx : x < Bytes.capacity operand.width)
    (hwidth : operand.width = output) :
    (difference symbol operand output).Implements (Arithmetic.differenceOf output) x y := by
  have hrange : (difference symbol operand output).InRange x y ↔ y ≤ x := by
    show (0 ≤ (x : Int) - y ∧ (x : Int) - y < Bytes.capacity output) ↔ y ≤ x
    rw [hwidth] at hx
    omega
  refine ⟨fun hroom => ?_, fun hroom => ?_, fun hless => absurd hwidth (Nat.ne_of_lt hless)⟩
  · exact ⟨x - y, Int.ofNat_sub (hrange.mp hroom), if_pos (hrange.mp hroom)⟩
  · exact if_neg (mt hrange.mpr hroom)

end

end IntegerFunction

namespace Arithmetic

/-- A word that is shifted out of its eight bytes is a multiple of their capacity. -/
theorem shiftLeft_eq (x count : Nat) :
    (if 64 ≤ count then 0 else (x <<< count) % Bytes.capacity 8) =
      x * Nat.pow 2 count % Nat.pow 2 64 := by
  split
  · rename_i hmany
    obtain ⟨more, rfl⟩ := Nat.exists_eq_add_of_le hmany
    have hpow : Nat.pow 2 (64 + more) = Nat.pow 2 64 * Nat.pow 2 more := Nat.pow_add 2 64 more
    rw [hpow, Nat.mul_left_comm, Nat.mul_mod_right]
  · rw [Nat.shiftLeft_eq, Bytes.capacity_word]
    rfl

private theorem shiftRight_eq {x : Nat} (hx : x < Bytes.capacity 8) (count : Nat) :
    (if 64 ≤ count then 0 else x >>> count) = x / Nat.pow 2 count := by
  split
  · rename_i hmany
    have hpow : Nat.pow 2 64 ≤ Nat.pow 2 count := Nat.pow_le_pow_right (by decide) hmany
    rw [Bytes.capacity_word] at hx
    exact (Nat.div_eq_of_lt (Nat.lt_of_lt_of_le hx hpow)).symm
  · exact Nat.shiftRight_eq_div_pow x count

end Arithmetic

namespace Setting

variable {σ : Type} {setting : Setting σ} {symbol : String} {a b : Bytes}

def Returns (setting : Setting σ) (symbol : String) (args : List Bytes) (width : Nat) (n : Int) :
    Prop :=
  ∃ value, setting.apply symbol args = .ok value ∧ value.length = width ∧ value.toNat = n

/-- A function faults if one of its operands has a wrong length, and names the first that has. -/
structure Checks (setting : Setting σ) (symbol : String) (first second : Operand) (a b : Bytes) :
    Prop where
  left : ¬ first.Takes a → setting.apply symbol [a, b] = setting.failure symbol (first.fault a)
  right : first.Takes a → ¬ second.Takes b →
    setting.apply symbol [a, b] = setting.failure symbol (second.fault b)

/-- A function gives the exact number if there is room for it, and faults otherwise. If its results
are wider than its operands, there always is. -/
structure Computes (setting : Setting σ) (f : IntegerFunction) (a b : Bytes) : Prop where
  checks : setting.Checks f.symbol f.operand f.operand a b
  inside : f.operand.Takes a → f.operand.Takes b → f.InRange a.toNat b.toNat →
    setting.Returns f.symbol [a, b] f.output (f.value a.toNat b.toNat)
  outside : f.operand.Takes a → f.operand.Takes b → ¬ f.InRange a.toNat b.toNat →
    setting.apply f.symbol [a, b] = setting.failure f.symbol f.beyond
  widening : f.operand.Takes a → f.operand.Takes b → f.operand.width < f.output →
    f.InRange a.toNat b.toNat

/-- The quotient and the remainder of two numbers, the second of which is not zero. -/
structure Divides (setting : Setting σ) (a b : Bytes) : Prop where
  checks : ∀ symbol ∈ ["div", "mod"], setting.Checks symbol (.upTo 8) (.upTo 8) a b
  zero : ∀ symbol ∈ ["div", "mod"],
    (setting.apply symbol [a, b] = setting.failure symbol .divisionByZero ↔
      a.length ≤ 8 ∧ b.length ≤ 8 ∧ b.toNat = 0)
  parts : a.length ≤ 8 → b.length ≤ 8 → b.toNat ≠ 0 → ∃ quotient remainder : Nat,
    setting.Returns "div" [a, b] 8 quotient ∧ setting.Returns "mod" [a, b] 8 remainder ∧
      a.toNat = b.toNat * quotient + remainder ∧ remainder < b.toNat

structure Widens (setting : Setting σ) (a : Bytes) : Prop where
  taken : a.length ≤ 8 → setting.Returns "uint8Bytes" [a] 8 a.toNat
  refused : 8 < a.length →
    setting.apply "uint8Bytes" [a] = setting.failure "uint8Bytes" (.operandTooLong 8 a.length)

/-- The first operand is a word, and the second any number of bits to shift it by. -/
structure Shifts (setting : Setting σ) (a b : Bytes) : Prop where
  checks : ∀ symbol ∈ ["lshift64", "rshift64"], setting.Checks symbol (.exactly 8) (.upTo 8) a b
  left : a.length = 8 → b.length ≤ 8 →
    setting.Returns "lshift64" [a, b] 8 (a.toNat * Nat.pow 2 b.toNat % Nat.pow 2 64 : Nat)
  right : a.length = 8 → b.length ≤ 8 →
    setting.Returns "rshift64" [a, b] 8 (a.toNat / Nat.pow 2 b.toNat : Nat)

private theorem returns_ofNat {args : List Bytes} {width n : Nat} (hn : n < Bytes.capacity width)
    (happly : setting.apply symbol args = .ok (Bytes.ofNat width n)) :
    setting.Returns symbol args width n :=
  ⟨_, happly, Bytes.length_ofNat width n, congrArg _ (Bytes.toNat_ofNat width n hn)⟩

private theorem failure_inj {kind other : FaultKind} :
    setting.failure symbol kind = setting.failure symbol other ↔ kind = other := by
  refine ⟨fun h => ?_, congrArg _⟩
  injection h with h
  injection h with h
  simpa using congrArg Fault.kind h

namespace Furnished

variable {operand : Operand} {read : Bytes → Except FaultKind Nat}
  {op : Nat → Nat → Except FaultKind Bytes} (h : setting.Furnished)

include h

private theorem checks_binary (hread : operand.ReadBy read)
    (hhosted : setting.Binary symbol (Arithmetic.binary read op)) :
    setting.Checks symbol operand operand a b where
  left hfirst := by
    rw [h.apply_binary hhosted, Arithmetic.binary, hread.refused hfirst]
    rfl
  right hfirst hsecond := by
    rw [h.apply_binary hhosted, Arithmetic.binary, hread.taken hfirst, hread.refused hsecond]
    rfl

/-- Operands that are taken come in as their numbers. -/
theorem apply_numbers (hread : operand.ReadBy read)
    (hhosted : setting.Binary symbol (Arithmetic.binary read op))
    (ha : operand.Takes a) (hb : operand.Takes b) :
    setting.apply symbol [a, b] = setting.report (Result.raisedBy symbol (op a.toNat b.toNat)) := by
  rw [h.apply_binary hhosted, Arithmetic.binary, hread.taken ha, hread.taken hb]

private theorem computes {f : IntegerFunction} (hread : f.operand.ReadBy read)
    (hhosted : setting.Binary f.symbol (Arithmetic.binary read op))
    (himplements : ∀ x < Bytes.capacity f.operand.width, ∀ y < Bytes.capacity f.operand.width,
      f.Implements op x y) : setting.Computes f a b where
  checks := h.checks_binary hread hhosted
  inside ha hb hrange := by
    obtain ⟨n, hn, hop⟩ := (himplements _ ha.toNat_lt _ hb.toNat_lt).inside hrange
    rw [← hn]
    refine returns_ofNat (Int.ofNat_lt.mp (hn ▸ hrange.2)) ?_
    rw [h.apply_numbers hread hhosted ha hb, hop]
    rfl
  outside ha hb hrange := by
    have hop := (himplements _ ha.toNat_lt _ hb.toNat_lt).outside hrange
    rw [h.apply_numbers hread hhosted ha hb, hop]
    rfl
  widening ha hb hwide := (himplements _ ha.toNat_lt _ hb.toNat_lt).widening hwide

private theorem computes_sum {input output : Nat}
    (hhosted : setting.Binary symbol (Arithmetic.sum input output)) :
    setting.Computes (.sum symbol (.exactly input) output) a b :=
  h.computes (Operand.readBy_fixed input) hhosted fun _ hx _ hy =>
    IntegerFunction.implements_sum hx hy

private theorem computes_difference {width : Nat}
    (hhosted : setting.Binary symbol (Arithmetic.difference width)) :
    setting.Computes (.difference symbol (.exactly width) width) a b :=
  h.computes (Operand.readBy_fixed width) hhosted fun _ hx _ _ =>
    IntegerFunction.implements_difference hx rfl

private theorem computes_product {input output : Nat} (hwide : input + input ≤ output)
    (hhosted : setting.Binary symbol (Arithmetic.product input output)) :
    setting.Computes (.product symbol (.exactly input) output) a b :=
  h.computes (Operand.readBy_fixed input) hhosted fun _ hx _ hy =>
    IntegerFunction.implements_product hx hy fun _ => hwide

private theorem computes_all : ∀ f ∈ IntegerFunction.all, setting.Computes f a b := by
  have hadd : setting.Binary "add" Arithmetic.add := h.long (by simp [Embedded.longTable])
  have hsub : setting.Binary "sub" Arithmetic.sub := h.long (by simp [Embedded.longTable])
  have hmul : setting.Binary "mul" Arithmetic.mul := h.long (by simp [Embedded.longTable])
  simp only [IntegerFunction.all, List.forall_mem_cons, List.not_mem_nil, false_implies,
    implies_true, and_true]
  refine ⟨?_, ?_, ?_, ?_, ?_, ?_, ?_, ?_, ?_, ?_, ?_, ?_, ?_, ?_, ?_, ?_⟩
  iterate 7 exact h.computes_sum (h.short (by simp [Embedded.shortTable]))
  iterate 4 exact h.computes_difference (h.short (by simp [Embedded.shortTable]))
  iterate 2 exact h.computes_product (by decide) (h.short (by simp [Embedded.shortTable]))
  · exact h.computes Operand.readBy_upTo8 hadd fun _ hx _ hy => IntegerFunction.implements_sum hx hy
  · exact h.computes Operand.readBy_upTo8 hsub fun _ hx _ _ =>
      IntegerFunction.implements_difference hx rfl
  · exact h.computes Operand.readBy_upTo8 hmul fun _ hx _ hy =>
      IntegerFunction.implements_product hx hy fun hless => absurd hless (by decide)

/-- Operations that fail for a second operand of zero only. -/
theorem divisionByZero_iff {g : Nat → Nat → Nat}
    (hop : ∀ x y, op x y = if y = 0 then .error .divisionByZero else .ok (Bytes.ofNat 8 (g x y)))
    (hhosted : setting.Binary symbol (Arithmetic.binary Arithmetic.upTo8 op)) :
    setting.apply symbol [a, b] = setting.failure symbol .divisionByZero ↔
      a.length ≤ 8 ∧ b.length ≤ 8 ∧ b.toNat = 0 := by
  have hchecks : setting.Checks symbol (.upTo 8) (.upTo 8) a b :=
    h.checks_binary Operand.readBy_upTo8 hhosted
  by_cases ha : a.length ≤ 8
  · by_cases hb : b.length ≤ 8
    · rw [h.apply_numbers Operand.readBy_upTo8 hhosted ha hb, hop]
      split
      · rename_i hzero
        exact ⟨fun _ => ⟨ha, hb, hzero⟩, fun _ => rfl⟩
      · rename_i hnonzero
        refine ⟨fun hfault => ?_, fun hzero => absurd hzero.2.2 hnonzero⟩
        cases hfault
    · rw [hchecks.right ha hb, failure_inj]
      refine ⟨fun hfault => ?_, fun hzero => absurd hzero.2.1 hb⟩
      cases hfault
  · rw [hchecks.left ha, failure_inj]
    refine ⟨fun hfault => ?_, fun hzero => absurd hzero.1 ha⟩
    cases hfault

private theorem divides : setting.Divides a b := by
  have hdiv : setting.Binary "div" Arithmetic.div := h.long (by simp [Embedded.longTable])
  have hmod : setting.Binary "mod" Arithmetic.mod := h.long (by simp [Embedded.longTable])
  constructor
  · simp only [List.forall_mem_cons, List.not_mem_nil, false_implies, implies_true, and_true]
    exact ⟨h.checks_binary Operand.readBy_upTo8 hdiv, h.checks_binary Operand.readBy_upTo8 hmod⟩
  · simp only [List.forall_mem_cons, List.not_mem_nil, false_implies, implies_true, and_true]
    exact ⟨h.divisionByZero_iff (fun _ _ => rfl) hdiv, h.divisionByZero_iff (fun _ _ => rfl) hmod⟩
  · intro ha hb hzero
    have htaken : (Operand.upTo 8).Takes a := ha
    have hroom : a.toNat < Bytes.capacity 8 := htaken.toNat_lt
    refine ⟨a.toNat / b.toNat, a.toNat % b.toNat, ?_, ?_, (Nat.div_add_mod _ _).symm,
      Nat.mod_lt _ (Nat.pos_of_ne_zero hzero)⟩
    · refine returns_ofNat (Nat.lt_of_le_of_lt (Nat.div_le_self _ _) hroom) ?_
      rw [h.apply_numbers Operand.readBy_upTo8 hdiv ha hb, Arithmetic.quotientOf, if_neg hzero]
      rfl
    · refine returns_ofNat (Nat.lt_of_le_of_lt (Nat.mod_le _ _) hroom) ?_
      rw [h.apply_numbers Operand.readBy_upTo8 hmod ha hb, Arithmetic.remainderOf, if_neg hzero]
      rfl

private theorem widens : setting.Widens a := by
  have hwiden : setting.Unary "uint8Bytes" Arithmetic.widen :=
    h.long (by simp [Embedded.longTable])
  constructor
  · intro ha
    have htaken : (Operand.upTo 8).Takes a := ha
    refine returns_ofNat htaken.toNat_lt ?_
    rw [h.apply_unary hwiden, Arithmetic.widen, Operand.readBy_upTo8.taken htaken]
    rfl
  · intro ha
    rw [h.apply_unary hwiden, Arithmetic.widen, Operand.readBy_upTo8.refused (Nat.not_le.mpr ha)]
    rfl

section

variable {move : Nat → Nat → Nat} (hhosted : setting.Binary symbol (Arithmetic.shift move))

include hhosted

private theorem checks_shift : setting.Checks symbol (.exactly 8) (.upTo 8) a b where
  left hfirst := by
    rw [h.apply_binary hhosted, Arithmetic.shift, (Operand.readBy_fixed 8).refused hfirst]
    rfl
  right hfirst hsecond := by
    rw [h.apply_binary hhosted, Arithmetic.shift, (Operand.readBy_fixed 8).taken hfirst,
      Operand.readBy_upTo8.refused hsecond]
    rfl

private theorem apply_shift (ha : a.length = 8) (hb : b.length ≤ 8) : setting.apply symbol [a, b] =
    .ok (Bytes.ofNat 8 (if 64 ≤ b.toNat then 0 else move a.toNat b.toNat)) := by
  rw [h.apply_binary hhosted, Arithmetic.shift, (Operand.readBy_fixed 8).taken ha,
    Operand.readBy_upTo8.taken hb]
  rfl

end

private theorem shifts : setting.Shifts a b := by
  have hleft : setting.Binary "lshift64" Arithmetic.shiftLeft :=
    h.long (by simp [Embedded.longTable])
  have hright : setting.Binary "rshift64" Arithmetic.shiftRight :=
    h.long (by simp [Embedded.longTable])
  constructor
  · simp only [List.forall_mem_cons, List.not_mem_nil, false_implies, implies_true, and_true]
    exact ⟨h.checks_shift hleft, h.checks_shift hright⟩
  · intro ha hb
    have happly := h.apply_shift hleft ha hb
    rw [Arithmetic.shiftLeft_eq] at happly
    refine returns_ofNat ?_ happly
    rw [Bytes.capacity_word]
    exact Nat.mod_lt _ (by decide)
  · intro ha hb
    have htaken : (Operand.exactly 8).Takes a := ha
    have hroom : a.toNat < Bytes.capacity 8 := htaken.toNat_lt
    have happly := h.apply_shift hright ha hb
    rw [Arithmetic.shiftRight_eq hroom] at happly
    exact returns_ofNat (Nat.lt_of_le_of_lt (Nat.div_le_self _ _) hroom) happly

end Furnished

/-- Integer functions are exact, or fault. -/
theorem integer_functions_exact_or_fault (h : setting.Furnished) (a b : Bytes) :
    (∀ f ∈ IntegerFunction.all, setting.Computes f a b) ∧ setting.Divides a b ∧ setting.Widens a ∧
      setting.Shifts a b :=
  ⟨h.computes_all, h.divides, h.widens, h.shifts⟩

theorem integer_functions_exact_or_fault_bounds :
    ∃ setting : Setting Tree, setting.Furnished ∧
      setting.Returns "sum8_16" [[255], [1]] 2 256 ∧
      setting.apply "sum8" [[255], [1]] = setting.failure "sum8" .overflow ∧
      setting.apply "sub8" [[255], [1, 0]] = setting.failure "sub8" (.wrongOperandLength 1 2) ∧
      setting.apply "mod" [[255], []] = setting.failure "mod" .divisionByZero ∧
      setting.Returns "lshift64" [[0, 0, 0, 0, 0, 0, 1, 1], [56]] 8 (Nat.pow 2 56) := by
  obtain ⟨setting, hbase, hsteady⟩ := exists_base
  have h := furnished_of_base hbase hsteady
  have hsums := (integer_functions_exact_or_fault h [255] [1]).1
  have hwide := hsums (.sum "sum8_16" (.exactly 1) 2) (by simp [IntegerFunction.all])
  have hnarrow := hsums (.sum "sum8" (.exactly 1) 1) (by simp [IntegerFunction.all])
  have hwrong := (integer_functions_exact_or_fault h [255] [1, 0]).1
    (.difference "sub8" (.exactly 1) 1) (by simp [IntegerFunction.all])
  have hzero := (integer_functions_exact_or_fault h [255] []).2.1.zero "mod" (by decide)
  have hshift := (integer_functions_exact_or_fault h [0, 0, 0, 0, 0, 0, 1, 1] [56]).2.2.2.left
    rfl (by decide)
  refine ⟨setting, h, hwide.inside rfl rfl ?_, hnarrow.outside rfl rfl ?_,
    hwrong.checks.right rfl (by decide), hzero.mpr (by decide), hshift⟩
  · exact hwide.widening rfl rfl (by decide)
  · exact fun hrange => absurd hrange.2 (by decide)

end Setting
end ByteFormula
