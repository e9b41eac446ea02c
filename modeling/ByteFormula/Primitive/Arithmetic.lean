import ByteFormula.Machine.Fault

/-! Arithmetic and bitwise operations on byte strings, which are unsigned big-endian numbers. A
result that does not fit its width is a fault. -/
namespace ByteFormula.Arithmetic

def fixed (width : Nat) (data : Bytes) : Except FaultKind Nat :=
  if data.length = width then .ok data.toNat else .error (.wrongOperandLength width data.length)

def upTo8 (data : Bytes) : Except FaultKind Nat :=
  if 8 < data.length then .error (.operandTooLong 8 data.length) else .ok data.toNat

def sumOf (width a b : Nat) : Except FaultKind Bytes :=
  if a + b < Bytes.capacity width then .ok (Bytes.ofNat width (a + b)) else .error .overflow

def differenceOf (width a b : Nat) : Except FaultKind Bytes :=
  if b ≤ a then .ok (Bytes.ofNat width (a - b)) else .error .underflow

def productOf (width a b : Nat) : Except FaultKind Bytes :=
  if a * b < Bytes.capacity width then .ok (Bytes.ofNat width (a * b)) else .error .overflow

def quotientOf (width a b : Nat) : Except FaultKind Bytes :=
  if b = 0 then .error .divisionByZero else .ok (Bytes.ofNat width (a / b))

def remainderOf (width a b : Nat) : Except FaultKind Bytes :=
  if b = 0 then .error .divisionByZero else .ok (Bytes.ofNat width (a % b))

/-- An operation on the numbers of two operands, the first of which is checked first. -/
def binary (operand : Bytes → Except FaultKind Nat) (op : Nat → Nat → Except FaultKind Bytes)
    (a b : Bytes) : Except FaultKind Bytes :=
  match operand a with
  | .error e => .error e
  | .ok x =>
    match operand b with
    | .error e => .error e
    | .ok y => op x y

def sum (input output : Nat) : Bytes → Bytes → Except FaultKind Bytes :=
  binary (fixed input) (sumOf output)

def difference (width : Nat) : Bytes → Bytes → Except FaultKind Bytes :=
  binary (fixed width) (differenceOf width)

def product (input output : Nat) : Bytes → Bytes → Except FaultKind Bytes :=
  binary (fixed input) (productOf output)

def add : Bytes → Bytes → Except FaultKind Bytes := binary upTo8 (sumOf 8)

def sub : Bytes → Bytes → Except FaultKind Bytes := binary upTo8 (differenceOf 8)

def mul : Bytes → Bytes → Except FaultKind Bytes := binary upTo8 (productOf 8)

def div : Bytes → Bytes → Except FaultKind Bytes := binary upTo8 (quotientOf 8)

def mod : Bytes → Bytes → Except FaultKind Bytes := binary upTo8 (remainderOf 8)

def widen (data : Bytes) : Except FaultKind Bytes :=
  match upTo8 data with
  | .error e => .error e
  | .ok n => .ok (Bytes.ofNat 8 n)

def lessThan (a b : Bytes) : Except FaultKind Bool :=
  if a.length = b.length then .ok (decide (a < b))
  else .error (.operandLengthMismatch a.length b.length)

def bytewise (op : UInt8 → UInt8 → UInt8) (a b : Bytes) : Except FaultKind Bytes :=
  if a.length = b.length then .ok (List.zipWith op a b)
  else .error (.operandLengthMismatch a.length b.length)

def shift (op : Nat → Nat → Nat) (word count : Bytes) : Except FaultKind Bytes :=
  match fixed 8 word with
  | .error e => .error e
  | .ok n =>
    match upTo8 count with
    | .error e => .error e
    | .ok amount => .ok (Bytes.ofNat 8 (if 64 ≤ amount then 0 else op n amount))

def shiftLeft : Bytes → Bytes → Except FaultKind Bytes :=
  shift fun n count => (n <<< count) % Bytes.capacity 8

def shiftRight : Bytes → Bytes → Except FaultKind Bytes :=
  shift fun n count => n >>> count

end ByteFormula.Arithmetic
