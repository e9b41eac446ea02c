import ByteFormula.Code.Head
import ByteFormula.Registry.Basic
import ByteFormula.Text.Hex

/-! The bytecode and the text of formulas over a registry. -/
namespace ByteFormula

def encodeData (data : Bytes) : Except CompileError Bytes :=
  if maxInlineData < data.length then .error (.hexTooLong data.length)
  else .ok ((Head.data data.length).bytes ++ data)

namespace Registry

variable {σ : Type}

def nameOf (registry : Registry σ) (index : Nat) : String :=
  match registry.function? index with
  | some function => function.symbol
  | none => s!"#{index}"

def headOf (function : Function σ) (count : Nat) : Head :=
  match function.space with
  | .embeddedShort => .short function.code
  | _ => .long function.code count

mutual
def encode (registry : Registry σ) : Formula → Except CompileError Bytes
  | .data bytes => encodeData bytes
  | .argument index => .ok (Head.short index).bytes
  | .call index args =>
    match registry.function? index with
    | none => .error (.unknownSymbol (registry.nameOf index))
    | some function =>
      match registry.encodeAll args with
      | .error e => .error e
      | .ok rest => .ok ((headOf function args.length).bytes ++ rest)

def encodeAll (registry : Registry σ) : List Formula → Except CompileError Bytes
  | [] => .ok []
  | arg :: rest =>
    match registry.encode arg with
    | .error e => .error e
    | .ok front =>
      match registry.encodeAll rest with
      | .error e => .error e
      | .ok back => .ok (front ++ back)
end

mutual
def chars (registry : Registry σ) : Formula → List Char
  | .data [] => ['n', 'i', 'l']
  | .data bytes => '0' :: 'x' :: (Hex.encode bytes).toList
  | .argument index => '$' :: (toString index).toList
  | .call index [] => (registry.nameOf index).toList
  | .call index (arg :: rest) =>
    (registry.nameOf index).toList ++ '(' :: (registry.chars arg ++ registry.moreChars rest)

/-- The characters of the arguments after the first, and the closing parenthesis. -/
def moreChars (registry : Registry σ) : List Formula → List Char
  | [] => [')']
  | arg :: rest => ',' :: ' ' :: (registry.chars arg ++ registry.moreChars rest)
end

def render (registry : Registry σ) (formula : Formula) : String :=
  String.ofList (registry.chars formula)

/-- Reads `count` formulas with the given reader, which takes and returns its offset. -/
def readMany (read : Nat → Bytes → Except DecodeError (Formula × Nat × Bytes)) :
    (count offset : Nat) → Bytes → Except DecodeError (List Formula × Nat × Bytes)
  | 0, offset, bytes => .ok ([], offset, bytes)
  | count + 1, offset, bytes =>
    match read offset bytes with
    | .error e => .error e
    | .ok (formula, offset, bytes) =>
      match readMany read count offset bytes with
      | .error e => .error e
      | .ok (formulas, offset, bytes) => .ok (formula :: formulas, offset, bytes)

/-- What the head of an expression stands for: data or the arguments of a call, which follow it,
or a reference. -/
inductive Opening where
  | data (length : Nat)
  | argument (index : Nat)
  | call (function count : Nat)
  deriving DecidableEq, Repr

/-- The opening of a head. References are checked against `arity` if there is one. -/
def opening (registry : Registry σ) (arity : Option Nat) : Head → Except DecodeError Opening
  | .data length => .ok (.data length)
  | .short code =>
    if code < argumentCodes then
      match arity with
      | some arity =>
        if arity ≤ code then .error (.argumentOutOfRange code arity) else .ok (.argument code)
      | none => .ok (.argument code)
    else
      match registry.byCode? code with
      | none => .error (.unknownFunctionCode code)
      | some (index, function) =>
        match function.arity with
        | .fixed count => .ok (.call index count)
        | .variadic => .ok (.call index 0)
  | .long code declared =>
    match registry.byCode? code with
    | none => .error (.unknownFunctionCode code)
    | some (index, function) =>
      if function.arity.accepts declared then .ok (.call index declared)
      else .error (.arityMismatch function.symbol declared function.arity)

/-- Reads the formula at the start of bytecode, and returns what follows it with its offset.
References are checked against `arity` if there is one; `room` is how many calls may still be
nested. -/
def read (registry : Registry σ) (arity : Option Nat) :
    (room offset : Nat) → Bytes → Except DecodeError (Formula × Nat × Bytes)
  | room, offset, bytes =>
    match Head.read bytes with
    | .error .empty => .error (.unexpectedEnd offset)
    | .error (.unexpectedEnd missing) => .error (.unexpectedEnd (offset + missing))
    | .error e => .error e
    | .ok head =>
      let next := offset + head.width
      let rest := bytes.drop head.width
      match registry.opening arity head with
      | .error e => .error e
      | .ok (.data length) =>
        let data := rest.take length
        if data.length < length then .error (.unexpectedEnd (offset + bytes.length))
        else .ok (.data data, next + length, rest.drop length)
      | .ok (.argument index) => .ok (.argument index, next, rest)
      | .ok (.call index count) =>
        match room with
        | 0 => .error (.tooDeep registry.maxCallDepth offset)
        | room + 1 =>
          match readMany (registry.read arity room) count next rest with
          | .error e => .error e
          | .ok (args, next, rest) => .ok (.call index args, next, rest)

/-- Reads the formula at an offset that lies inside `depth` calls, and returns the offset after
it. -/
def readAt (registry : Registry σ) (bytecode : Bytes) (offset : Nat) (arity : Option Nat)
    (depth : Nat) : Except DecodeError (Formula × Nat) :=
  match registry.read arity (registry.maxCallDepth - depth) offset (bytecode.drop offset) with
  | .error e => .error e
  | .ok (formula, next, _) => .ok (formula, next)

def decode (registry : Registry σ) (bytecode : Bytes) (arity : Option Nat) :
    Except DecodeError Formula :=
  match registry.read arity registry.maxCallDepth 0 bytecode with
  | .error e => .error e
  | .ok (formula, _, rest) =>
    if rest = [] then .ok formula else .error (.trailingBytes rest.length)

def decompile (registry : Registry σ) (bytecode : Bytes) : Except DecodeError String :=
  match registry.decode bytecode none with
  | .error e => .error e
  | .ok formula => .ok (registry.render formula)

/-- The name of the function called first by a bytecode; data and references call none. -/
def symbolOf (registry : Registry σ) (bytecode : Bytes) : Except DecodeError (Option String) :=
  match Head.read bytecode with
  | .error e => .error e
  | .ok head =>
    match head.code? with
    | none => .ok none
    | some code =>
      if code < argumentCodes then .ok none
      else
        match registry.byCode? code with
        | none => .error (.unknownFunctionCode code)
        | some (_, function) => .ok (some function.symbol)

end Registry
end ByteFormula
