import ByteFormula.Bytes

/-! Hexadecimal text: two digits a byte, written in lower case and read in either case. -/
namespace ByteFormula.Hex

/-- Why a text is no hexadecimal spelling; positions count bytes of the text. -/
inductive Fault where
  | oddLength
  | invalidCharacter (byte : UInt8) (position : Nat)
  deriving DecidableEq, Repr

def digit (value : Nat) : Char :=
  Char.ofNat (if value < 10 then 48 + value else 87 + value)

def digits (byte : UInt8) : List Char :=
  [digit (byte.toNat / 16), digit (byte.toNat % 16)]

def encode (bytes : Bytes) : String :=
  String.ofList (bytes.flatMap digits)

def value? (code : UInt8) : Option Nat :=
  let n := code.toNat
  if 48 ≤ n ∧ n ≤ 57 then some (n - 48)
  else if 65 ≤ n ∧ n ≤ 70 then some (n - 55)
  else if 97 ≤ n ∧ n ≤ 102 then some (n - 87)
  else none

/-- Reads digits pairwise; `done` holds the bytes read so far, last one first. -/
def readPairs (done : Bytes) (position : Nat) : Bytes → Except Fault Bytes
  | [] => .ok done.reverse
  | [_] => .error .oddLength
  | high :: low :: rest =>
    match value? high, value? low with
    | none, _ => .error (.invalidCharacter high position)
    | some _, none => .error (.invalidCharacter low (position + 1))
    | some h, some l => readPairs (UInt8.ofNat (16 * h + l) :: done) (position + 2) rest

/-- The bytes that a text spells. An odd length is reported before any bad digit. -/
def decode (text : List Char) : Except Fault Bytes :=
  let codes := text.flatMap String.utf8EncodeChar
  if codes.length % 2 = 1 then .error .oddLength else readPairs [] 0 codes

end ByteFormula.Hex
