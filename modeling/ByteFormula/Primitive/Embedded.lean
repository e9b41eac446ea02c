import ByteFormula.Curve.Signature
import ByteFormula.Data.LazyArray
import ByteFormula.Digest.Blake3
import ByteFormula.Primitive.Arithmetic
import ByteFormula.Registry.Basic

/-! The functions that every registry starts with. The order of the tables fixes their codes. -/
namespace ByteFormula.Embedded

variable {σ : Type}

/-- Predicates give one byte for true and none for false. -/
def truth (holds : Bool) : Bytes :=
  if holds then [0xff] else []

def byteOperand (data : Bytes) : Host σ Nat :=
  .lift (Arithmetic.fixed 1 data)

def unary (f : Bytes → Except FaultKind Bytes) : Host σ Bytes := do
  .lift (f (← .arg 0))

def binary (f : Bytes → Bytes → Except FaultKind Bytes) : Host σ Bytes := do
  let a ← .arg 0
  let b ← .arg 1
  .lift (f a b)

def isControl (c : Char) : Bool :=
  c.toNat < 0x20 || (0x7f ≤ c.toNat && c.toNat ≤ 0x9f)

/-- The message of an explicit failure: its text if that can be shown, else its bytes. -/
def failureMessage (data : Bytes) : String :=
  let shown := "0x" ++ Hex.encode data
  match data.toText? with
  | none => shown
  | some text => if text.isEmpty || text.toList.any isControl then shown else text

def fail : Host σ Bytes := do
  let message ← .arg 0
  .fail (.failed (failureMessage message))

def slice : Host σ Bytes := do
  let data ← .arg 0
  let first ← byteOperand (← .arg 1)
  let last ← byteOperand (← .arg 2)
  if data.length ≤ last then .fail (.indexOutOfBounds last data.length)
  else if last < first then .fail (.indexOutOfBounds first (last + 1))
  else return (data.drop first).take (last + 1 - first)

def byte : Host σ Bytes := do
  let data ← .arg 0
  let index ← byteOperand (← .arg 1)
  match data[index]? with
  | some b => return [b]
  | none => .fail (.indexOutOfBounds index data.length)

def tail : Host σ Bytes := do
  let data ← .arg 0
  let first ← byteOperand (← .arg 1)
  if data.length < first then .fail (.indexOutOfBounds first data.length)
  else return data.drop first

def lengthIn (width : Nat) (data : Bytes) : Except FaultKind Bytes :=
  if data.length < Bytes.capacity width then .ok (Bytes.ofNat width data.length) else .error .overflow

/-- One of two arguments, as the first one says; the other is not evaluated. -/
def choose : Host σ Bytes := do
  if ← .argIsTrue 0 then .arg 1 else .arg 2

def validSignature : Host σ Bytes := do
  let message ← .arg 0
  let signature ← .arg 1
  let key ← .arg 2
  if key.length = Signature.keyLength then return truth (Signature.verify message signature key)
  else .fail (.wrongOperandLength Signature.keyLength key.length)

def invocationPath : Host σ Bytes :=
  .invocationPath fun
    | some path => .done path
    | none => .fail (.capabilityUnavailable "invocation_path")

def bytesAtPath : Host σ Bytes := do
  let path ← .arg 0
  .bytesAt path .lift

def ofData {α : Type} : Except DataError α → Except FaultKind α
  | .ok value => .ok value
  | .error e => .error (.data e)

def arrayElement : Host σ Bytes := do
  let raw ← .arg 0
  let index ← byteOperand (← .arg 1)
  .lift (ofData ((LazyArray.ofBytes raw Packing.maxElements).get index).1)

def arrayLength (raw : Bytes) : Except FaultKind Bytes :=
  match (LazyArray.ofBytes raw Packing.maxElements).length.1 with
  | .error e => .error (.data e)
  | .ok count => if count < 256 then .ok [UInt8.ofNat count] else .error .overflow

/-- Whether `count` arguments from `first` on are true, up to the first that is not. -/
def allTrue (first : Nat) : (count : Nat) → Host σ Bool
  | 0 => return true
  | count + 1 => do
    if ← .argIsTrue first then allTrue (first + 1) count else return false

/-- Whether one of `count` arguments from `first` on is true, up to the first that is. -/
def anyTrue (first : Nat) : (count : Nat) → Host σ Bool
  | 0 => return false
  | count + 1 => do
    if ← .argIsTrue first then return true else anyTrue (first + 1) count

def conjunction : Host σ Bytes :=
  .arity fun count => do return truth (← allTrue 0 count)

def disjunction : Host σ Bytes :=
  .arity fun count => do return truth (← anyTrue 0 count)

def ofAll (f : Bytes → Bytes) : Host σ Bytes := do
  return f (← .allArgs).flatten

def shortTable : List (String × Nat × Host σ Bytes) :=
  [("fail", 1, fail),
   ("slice", 3, slice),
   ("byte", 2, byte),
   ("tail", 2, tail),
   ("equal", 2, binary fun a b => .ok (truth (a == b))),
   ("hasPrefix", 2, binary fun a b => .ok (truth (b.isPrefixOf a))),
   ("len8", 1, unary (lengthIn 1)),
   ("len16", 1, unary (lengthIn 2)),
   ("not", 1, unary fun a => .ok (truth a.isEmpty)),
   ("if", 3, choose),
   ("isZero", 1, unary fun a => .ok (truth (a.all (· == 0)))),
   ("sum8", 2, binary (Arithmetic.sum 1 1)),
   ("sum8_16", 2, binary (Arithmetic.sum 1 2)),
   ("sum16", 2, binary (Arithmetic.sum 2 2)),
   ("sum16_32", 2, binary (Arithmetic.sum 2 4)),
   ("sum32", 2, binary (Arithmetic.sum 4 4)),
   ("sum32_64", 2, binary (Arithmetic.sum 4 8)),
   ("sum64", 2, binary (Arithmetic.sum 8 8)),
   ("sub8", 2, binary (Arithmetic.difference 1)),
   ("sub16", 2, binary (Arithmetic.difference 2)),
   ("sub32", 2, binary (Arithmetic.difference 4)),
   ("sub64", 2, binary (Arithmetic.difference 8)),
   ("mul8", 2, binary (Arithmetic.product 1 2)),
   ("mul16", 2, binary (Arithmetic.product 2 4)),
   ("lessThan", 2, binary fun a b => (Arithmetic.lessThan a b).map truth),
   ("validSignatureED25519", 3, validSignature),
   ("@", 0, invocationPath),
   ("@Path", 1, bytesAtPath),
   ("@Array8", 2, arrayElement),
   ("ArrayLength8", 1, unary arrayLength)]

def longTable : List (String × Arity × Host σ Bytes) :=
  [("concat", .variadic, ofAll id),
   ("and", .variadic, conjunction),
   ("or", .variadic, disjunction),
   ("blake3", .variadic, ofAll Blake3.hash),
   ("sha256", .variadic, ofAll Sha2.sha256),
   ("bitwiseAND", .fixed 2, binary (Arithmetic.bytewise (· &&& ·))),
   ("bitwiseOR", .fixed 2, binary (Arithmetic.bytewise (· ||| ·))),
   ("bitwiseXOR", .fixed 2, binary (Arithmetic.bytewise (· ^^^ ·))),
   ("bitwiseNOT", .fixed 1, unary fun a => .ok (a.map (~~~ ·))),
   ("lshift64", .fixed 2, binary Arithmetic.shiftLeft),
   ("rshift64", .fixed 2, binary Arithmetic.shiftRight),
   ("add", .fixed 2, binary Arithmetic.add),
   ("sub", .fixed 2, binary Arithmetic.sub),
   ("mul", .fixed 2, binary Arithmetic.mul),
   ("div", .fixed 2, binary Arithmetic.div),
   ("mod", .fixed 2, binary Arithmetic.mod),
   ("uint8Bytes", .fixed 1, unary Arithmetic.widen)]

def addShort (registry : Registry σ) :
    List (String × Nat × Host σ Bytes) → Except RegistryError (Registry σ)
  | [] => .ok registry
  | (symbol, arity, program) :: rest =>
    match registry.embedShort symbol arity program with
    | (.error e, _) => .error e
    | (.ok _, registry) => addShort registry rest

def addLong (registry : Registry σ) :
    List (String × Arity × Host σ Bytes) → Except RegistryError (Registry σ)
  | [] => .ok registry
  | (symbol, arity, program) :: rest =>
    match registry.embedLong symbol arity program with
    | (.error e, _) => .error e
    | (.ok _, registry) => addLong registry rest

end ByteFormula.Embedded

namespace ByteFormula.Registry

variable {σ : Type}

def embedded : Except RegistryError (Registry σ) :=
  match Embedded.addShort empty Embedded.shortTable with
  | .error e => .error e
  | .ok registry => Embedded.addLong registry Embedded.longTable

end ByteFormula.Registry
