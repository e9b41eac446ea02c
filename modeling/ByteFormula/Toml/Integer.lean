/-! The integers of TOML. -/
namespace ByteFormula.Toml

def digit? (c : Char) : Option Nat :=
  if '0' ≤ c ∧ c ≤ '9' then some (c.toNat - 48)
  else if 'a' ≤ c ∧ c ≤ 'f' then some (c.toNat - 87)
  else if 'A' ≤ c ∧ c ≤ 'F' then some (c.toNat - 55)
  else none

/-- The number that digits of a base spell. Single underscores may stand between digits;
`expected` says that a digit has to come next. -/
def digits (base : Nat) (expected : Bool) (value : Nat) : List Char → Option Nat
  | [] => if expected then none else some value
  | '_' :: rest => if expected then none else digits base true value rest
  | c :: rest =>
    match digit? c with
    | none => none
    | some d => if d < base then digits base false (base * value + d) rest else none

def decimal : List Char → Option Nat
  | ['0'] => some 0
  | '0' :: _ => none
  | text => digits 10 true 0 text

def integer : List Char → Option Int
  | '0' :: 'x' :: rest => (digits 16 true 0 rest).map Int.ofNat
  | '0' :: 'o' :: rest => (digits 8 true 0 rest).map Int.ofNat
  | '0' :: 'b' :: rest => (digits 2 true 0 rest).map Int.ofNat
  | '+' :: rest => (decimal rest).map Int.ofNat
  | '-' :: rest => (decimal rest).map fun n => -Int.ofNat n
  | text => (decimal text).map Int.ofNat

end ByteFormula.Toml
