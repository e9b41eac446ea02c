import ByteFormula.Bytes
import ByteFormula.Code.Error

/-! The head of an expression in bytecode.

The first byte tells what follows: `1LLLLLLL` is data of `L` bytes, `00CCCCCC` a call of a short
code, and `01AAAACC CCCCCCCC` a call of any code with its number of arguments. Short codes below
sixteen refer to arguments. The arguments of a call follow its head, depth first. -/
namespace ByteFormula

def maxInlineData : Nat := 127

inductive Head where
  | data (length : Nat)
  | short (code : Nat)
  | long (code arity : Nat)
  deriving DecidableEq, Repr

namespace Head

def width : Head → Nat
  | .long _ _ => 2
  | _ => 1

def code? : Head → Option Nat
  | .data _ => none
  | .short code => some code
  | .long code _ => some code

/-- The word of a call with two bytes; the fields are joined bit by bit. -/
def longWord (code arity : Nat) : Nat :=
  0x4000 ||| (arity % 0x100) * 0x400 % 0x10000 ||| code

def bytes : Head → Bytes
  | .data length => [UInt8.ofNat (0x80 + length)]
  | .short code => [UInt8.ofNat (code % 64)]
  | .long code arity => Bytes.ofNat 2 (longWord code arity)

def read : Bytes → Except DecodeError Head
  | [] => .error .empty
  | first :: rest =>
    if 0x80 ≤ first.toNat then .ok (.data (first.toNat - 0x80))
    else if first.toNat < 0x40 then .ok (.short first.toNat)
    else
      match rest with
      | [] => .error (.unexpectedEnd 1)
      | second :: _ =>
        let word := 256 * first.toNat + second.toNat
        .ok (.long (word % 0x400) (word / 0x400 % 0x10))

end Head
end ByteFormula
