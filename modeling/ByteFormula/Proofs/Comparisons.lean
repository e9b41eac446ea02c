import ByteFormula.Proofs.Applications
import ByteFormula.Proofs.PackedForms

/-! Comparison of numbers. `lessThan` compares byte strings of one length byte by byte, which is the
order of the numbers that they spell. The base definitions make the other comparisons and the
selection of an operand from it, and pass on its fault for operands of different lengths. -/
namespace ByteFormula

variable {σ : Type}

namespace Bytes

private theorem toNat_cons (byte : UInt8) (rest : Bytes) :
    toNat (byte :: rest) = byte.toNat * capacity rest.length + toNat rest := by
  have hfold (rest : Bytes) (start : Nat) :
      rest.foldl (fun value byte => 256 * value + byte.toNat) start =
        start * capacity rest.length + toNat rest := by
    induction rest generalizing start with
    | nil => simp [capacity]
    | cons next rest ih =>
      rw [toNat, List.foldl_cons, List.foldl_cons, ih, ih (256 * 0 + next.toNat),
        List.length_cons, capacity]
      grind
  rw [toNat, List.foldl_cons, hfold, Nat.mul_zero, Nat.zero_add]

/-- Numbers in one base are compared by their leading digits first. -/
theorem leading_lt_iff {base low other : Nat} (hlow : low < base) (hother : other < base)
    (x y : Nat) :
    x * base + low < y * base + other ↔ x < y ∨ x = y ∧ low < other := by
  rcases Nat.lt_trichotomy x y with h | rfl | h
  · have hstep := Nat.mul_le_mul_right base (Nat.succ_le_of_lt h)
    rw [Nat.succ_mul] at hstep
    omega
  · omega
  · have hstep := Nat.mul_le_mul_right base (Nat.succ_le_of_lt h)
    rw [Nat.succ_mul] at hstep
    omega

/-- Byte strings of one length are ordered like the numbers that they spell. -/
theorem lt_iff_toNat_lt {a b : Bytes} (h : a.length = b.length) : a < b ↔ a.toNat < b.toNat := by
  induction a generalizing b with
  | nil =>
    cases List.length_eq_zero_iff.mp h.symm
    exact iff_of_false (List.not_lt_nil []) (Nat.lt_irrefl _)
  | cons x xs ih =>
    cases b with
    | nil => cases h
    | cons y ys =>
      have hlength : xs.length = ys.length := Nat.succ.inj h
      have hxs : toNat xs < capacity ys.length := hlength ▸ toNat_lt_capacity xs
      rw [List.cons_lt_cons_iff, ih hlength, toNat_cons, toNat_cons, hlength,
        leading_lt_iff hxs (toNat_lt_capacity ys), UInt8.lt_iff_toNat_lt, ← UInt8.toNat_inj]

end Bytes

/-- A value that depends on the order of two operands, which must have one length. -/
def Result.compared (a b value : Bytes) : Result :=
  if a.length = b.length then .ok value
  else .error ⟨.operandLengthMismatch a.length b.length, some "lessThan", none⟩

namespace Result

variable {a b value : Bytes}

@[simp] theorem named_compared (symbol : String) :
    (compared a b value).named symbol = compared a b value := by
  unfold compared
  split <;> rfl

end Result

namespace Embedded

open Result (compared)

variable {world : World} {a b : Bytes} {p q : Bool}

/-- A fault of the first argument comes out, since that one is asked for before all others. -/
theorem meaning_disjunction :
    (disjunction : Host σ Bytes).meaning world [compared a b (truth p), .ok (truth q)] =
      compared a b (truth (p || q)) := by
  unfold compared
  split
  · cases p <;> cases q <;> rfl
  · rfl

private theorem meaning_negation :
    (unary fun a => .ok (truth a.isEmpty) : Host σ Bytes).meaning world [compared a b (truth p)] =
      compared a b (truth (!p)) := by
  unfold compared
  split
  · cases p <;> rfl
  · rfl

private theorem meaning_choose {x y : Bytes} :
    (choose : Host σ Bytes).meaning world [compared a b (truth p), .ok x, .ok y] =
      compared a b (if p then x else y) := by
  unfold compared
  split
  · cases p <;> rfl
  · rfl

private theorem meaning_lessThan :
    Result.named "lessThan"
      ((binary fun a b => (Arithmetic.lessThan a b).map truth : Host σ Bytes).meaning world
        [.ok a, .ok b]) = compared a b (truth (a.toNat < b.toNat)) := by
  unfold compared
  refine (Host.named_lift "lessThan" ((Arithmetic.lessThan a b).map truth)).trans ?_
  unfold Arithmetic.lessThan
  split
  · rw [decide_eq_decide.mpr (Bytes.lt_iff_toNat_lt ‹_›)]
    rfl
  · rfl

end Embedded

namespace Setting

open Embedded (truth)

variable {setting : Setting σ} {a b : Bytes}

def Compares (setting : Setting σ) (a b : Bytes) (depth : Nat) (e : Expression) (value : Bytes) :
    Prop :=
  setting.registry.Means (setting.surroundings.world setting.state) [.ok a, .ok b] depth e
    (.compared a b value)

namespace Compares

variable {depth : Nat} {e : Expression} {p : Bool} (h : setting.Furnished)

include h

theorem lessThan :
    setting.Compares a b 1 (.application "lessThan" 2) (truth (a.toNat < b.toNat)) := by
  have hhosted : setting.Binary "lessThan" fun a b => (Arithmetic.lessThan a b).map truth :=
    h.short (by simp [Embedded.shortTable])
  have hmeans : setting.registry.Means (setting.surroundings.world setting.state) [.ok a, .ok b] 1
      (.application "lessThan" 2) _ := Registry.means_application_host h.built.reached hhosted rfl
  rw [Embedded.meaning_lessThan] at hmeans
  exact hmeans

private theorem negation (hcompares : setting.Compares a b depth e (truth p)) :
    setting.Compares a b (1 + depth) (.call "not" [e]) (truth (!p)) := by
  have hnot : setting.Unary "not" fun a => .ok (truth a.isEmpty) :=
    h.short (by simp [Embedded.shortTable])
  have hargs := Registry.Means.cons hcompares Registry.meansAll_nil
  have hcall := hargs.call_host h.built.reached hnot rfl
  rw [Embedded.meaning_negation, Result.named_compared] at hcall
  exact hcall

private theorem orEqual (hcompares : setting.Compares a b 1 e (truth p)) :
    setting.Compares a b 2 (.call "or" [e, .application "equal" 2]) (truth (p || a == b)) := by
  have hequal : setting.Binary "equal" fun a b => .ok (truth (a == b)) :=
    h.short (by simp [Embedded.shortTable])
  have hor : setting.registry.Hosted "or" .variadic Embedded.disjunction :=
    h.long (by simp [Embedded.longTable])
  have hsame : setting.registry.Means (setting.surroundings.world setting.state) [.ok a, .ok b] 1
      (.application "equal" 2) (.ok (truth (a == b))) :=
    Registry.means_application_host h.built.reached hequal rfl
  have hargs := Registry.Means.cons hcompares (hsame.cons Registry.meansAll_nil)
  have hcall := hargs.call_host h.built.reached hor rfl
  rw [Embedded.meaning_disjunction, Result.named_compared] at hcall
  exact hcall

/-- One of the operands is chosen by the comparison of both. -/
theorem choose (hcompares : setting.Compares a b depth e (truth p)) {i j : Nat} {x y : Bytes}
    (hx : [a, b][i]? = some x) (hy : [a, b][j]? = some y) :
    setting.Compares a b (1 + depth)
      (.call "if" [e, .call (Literal.ofReference i) [], .call (Literal.ofReference j) []])
      (if p then x else y) := by
  have hif : setting.registry.Hosted "if" (.fixed 3) Embedded.choose :=
    h.short (by simp [Embedded.shortTable])
  have hmeans {index : Nat} {value : Bytes} (hvalue : [a, b][index]? = some value) :
      setting.registry.Means (setting.surroundings.world setting.state) [.ok a, .ok b] depth
        (.call (Literal.ofReference index) []) (.ok value) := by
    have hindex : index < 2 := (List.getElem?_eq_some_iff.mp hvalue).1
    refine Registry.means_reference (Nat.lt_trans hindex (by decide)) ?_
    exact (List.getElem?_map (l := [a, b])).trans (congrArg (Option.map Except.ok) hvalue)
  have hargs := Registry.Means.cons hcompares
    ((hmeans hx).cons ((hmeans hy).cons Registry.meansAll_nil))
  have hcall := hargs.call_host h.built.reached hif rfl
  rw [Embedded.meaning_choose, Result.named_compared] at hcall
  exact hcall

/-- A base definition passes on what its body means. -/
theorem definition (hbase : Registry.base = .ok setting.registry) {symbol : String} {value : Bytes}
    (hcompares : setting.Compares a b depth e value) (hspellable : e.Spellable)
    (hentry : ∃ d ∈ baseDefinitions, d.symbol = symbol ∧ d.arity = .fixed 2 ∧ d.body = e.text) :
    setting.Compares a b (1 + depth) (.application symbol 2) value := by
  have hdefines := Registry.base_defines hbase hspellable hentry
  have hmeans := Registry.means_application_definition h.built.reached hdefines hcompares
  rw [Result.named_compared] at hmeans
  exact hmeans

/-- What a comparison means is what its application gives, since it nests few calls. -/
theorem apply (hbase : Registry.base = .ok setting.registry) {symbol : String} {value : Bytes}
    (hsymbol : Literal.isReserved symbol = false)
    (hcompares : setting.Compares a b depth (.application symbol 2) value)
    (hdepth : depth ≤ defaultMaxCallDepth) :
    setting.apply symbol [a, b] = setting.report (.compared a b value) := by
  have hfew : [a, b].length ≤ maxCallArguments := show 2 ≤ maxCallArguments by decide
  refine h.apply_means hsymbol hfew hcompares ?_
  rw [Registry.base_maxCallDepth hbase]
  exact hdepth

end Compares

section

variable (h : setting.Furnished) (hbase : Registry.base = .ok setting.registry)

include h hbase

private theorem compares_lessOrEqualThan :
    setting.Compares a b 3 (.application "lessOrEqualThan" 2)
      (truth (decide (a.toNat < b.toNat) || a == b)) :=
  ((Compares.lessThan h).orEqual h).definition h hbase (by decide) (by decide)

private theorem compares_greaterThan :
    setting.Compares a b 5 (.application "greaterThan" 2)
      (truth (!(decide (a.toNat < b.toNat) || a == b))) :=
  ((compares_lessOrEqualThan h hbase).negation h).definition h hbase (by decide) (by decide)

private theorem compares_greaterOrEqualThan :
    setting.Compares a b 3 (.application "greaterOrEqualThan" 2)
      (truth (!decide (a.toNat < b.toNat))) :=
  ((Compares.lessThan h).negation h).definition h hbase (by decide) (by decide)

private theorem compares_min :
    setting.Compares a b 3 (.application "min" 2) (if decide (a.toNat < b.toNat) then a else b) :=
  ((Compares.lessThan h).choose h (i := 0) (j := 1) rfl rfl).definition h hbase
    (by decide) (by decide)

private theorem compares_max :
    setting.Compares a b 3 (.application "max" 2) (if decide (a.toNat < b.toNat) then b else a) :=
  ((Compares.lessThan h).choose h (i := 1) (j := 0) rfl rfl).definition h hbase
    (by decide) (by decide)

end

private theorem report_compared (hlength : a.length = b.length) (value : Bytes) :
    setting.report (.compared a b value) = .ok value := by
  rw [Result.compared, if_pos hlength]
  rfl

private theorem report_mismatch (hlength : a.length ≠ b.length) (value : Bytes) :
    setting.report (.compared a b value) =
      setting.failure "lessThan" (.operandLengthMismatch a.length b.length) := by
  rw [Result.compared, if_neg hlength]
  rfl

private theorem truth_eq {p : Bool} {q : Prop} [Decidable q] (h : p = true ↔ q) :
    truth p = if q then [0xff] else [] := by
  rw [truth]
  split
  · rw [if_pos (h.mp ‹_›)]
  · rw [if_neg (mt h.mpr ‹_›)]

/-- Comparisons decide the order of the numbers that their operands spell, and find the operand that
is smaller or larger. Operands of different lengths are refused by `lessThan`. -/
theorem comparisons_decide_numeric_order (hbase : Registry.base = .ok setting.registry)
    (hsteady : setting.surroundings.Steady setting.state) (a b : Bytes) :
    (a.length = b.length →
      setting.apply "lessThan" [a, b] = .ok (if a.toNat < b.toNat then [0xff] else []) ∧
      setting.apply "lessOrEqualThan" [a, b] = .ok (if a.toNat ≤ b.toNat then [0xff] else []) ∧
      setting.apply "greaterThan" [a, b] = .ok (if b.toNat < a.toNat then [0xff] else []) ∧
      setting.apply "greaterOrEqualThan" [a, b] = .ok (if b.toNat ≤ a.toNat then [0xff] else []) ∧
      (∃ least ∈ [a, b], setting.apply "min" [a, b] = .ok least ∧
        least.toNat = Nat.min a.toNat b.toNat) ∧
      ∃ greatest ∈ [a, b], setting.apply "max" [a, b] = .ok greatest ∧
        greatest.toNat = Nat.max a.toNat b.toNat) ∧
    (a.length ≠ b.length →
      ∀ symbol ∈ ["lessThan", "lessOrEqualThan", "greaterThan", "greaterOrEqualThan", "min", "max"],
        setting.apply symbol [a, b] =
          setting.failure "lessThan" (.operandLengthMismatch a.length b.length)) := by
  have h := furnished_of_base hbase hsteady
  have hless := (Compares.lessThan (a := a) (b := b) h).apply h hbase (by decide) (by decide)
  have hlessOrEqual := (compares_lessOrEqualThan (a := a) (b := b) h hbase).apply h hbase
    (by decide) (by decide)
  have hgreater := (compares_greaterThan (a := a) (b := b) h hbase).apply h hbase
    (by decide) (by decide)
  have hgreaterOrEqual := (compares_greaterOrEqualThan (a := a) (b := b) h hbase).apply h hbase
    (by decide) (by decide)
  have hmin := (compares_min (a := a) (b := b) h hbase).apply h hbase (by decide) (by decide)
  have hmax := (compares_max (a := a) (b := b) h hbase).apply h hbase (by decide) (by decide)
  constructor
  · intro hlength
    have hsame : a = b ↔ a.toNat = b.toNat := ⟨congrArg _, Bytes.eq_of_toNat hlength⟩
    simp only [report_compared hlength] at hless hlessOrEqual hgreater hgreaterOrEqual hmin hmax
    rw [hless, hlessOrEqual, hgreater, hgreaterOrEqual, hmin, hmax]
    refine ⟨congrArg _ (truth_eq ?_), congrArg _ (truth_eq ?_), congrArg _ (truth_eq ?_),
      congrArg _ (truth_eq ?_), ⟨_, ?_, rfl, ?_⟩, _, ?_, rfl, ?_⟩
    · exact decide_eq_true_iff
    · rw [Bool.or_eq_true, decide_eq_true_iff, beq_iff_eq, hsame]
      omega
    · rw [Bool.not_eq_true', Bool.or_eq_false_iff, decide_eq_false_iff_not, beq_eq_false_iff_ne,
        ne_eq, hsame]
      omega
    · rw [Bool.not_eq_true', decide_eq_false_iff_not, Nat.not_lt]
    · split <;> simp
    · split
      · exact (Nat.min_eq_left (Nat.le_of_lt (of_decide_eq_true ‹_›))).symm
      · exact (Nat.min_eq_right (Nat.not_lt.mp (mt decide_eq_true ‹_›))).symm
    · split <;> simp
    · split
      · exact (Nat.max_eq_right (Nat.le_of_lt (of_decide_eq_true ‹_›))).symm
      · exact (Nat.max_eq_left (Nat.not_lt.mp (mt decide_eq_true ‹_›))).symm
  · intro hlength
    simp only [List.forall_mem_cons, List.not_mem_nil, false_implies, implies_true, hless,
      hlessOrEqual, hgreater, hgreaterOrEqual, hmin, hmax, report_mismatch hlength, and_self]

theorem comparisons_decide_numeric_order_two_bytes :
    ∃ setting : Setting Tree, Registry.base = .ok setting.registry ∧
      setting.surroundings.Steady setting.state ∧
      setting.apply "lessThan" [[1, 0], [0, 255]] = .ok [] ∧
      setting.apply "greaterThan" [[1, 0], [0, 255]] = .ok [0xff] ∧
      (∃ least ∈ ([[1, 0], [0, 255]] : List Bytes),
        setting.apply "min" [[1, 0], [0, 255]] = .ok least ∧ least.toNat = 255) ∧
      setting.apply "max" [[1], [0, 255]] =
        setting.failure "lessThan" (.operandLengthMismatch 1 2) := by
  obtain ⟨setting, hbase, hsteady⟩ := exists_base
  obtain ⟨hless, -, hgreater, -, hmin, -⟩ :=
    (comparisons_decide_numeric_order hbase hsteady [1, 0] [0, 255]).1 rfl
  have hfaults := (comparisons_decide_numeric_order hbase hsteady [1] [0, 255]).2 (by decide)
  exact ⟨setting, hbase, hsteady, hless, hgreater, hmin, hfaults "max" (by decide)⟩

end Setting
end ByteFormula
