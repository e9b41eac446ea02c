import ByteFormula.Bytes

/-! The twisted Edwards curve `-x² + y² = 1 + d·x²·y²` over the field of `2²⁵⁵ - 19` elements.

Points are written `(X : Y : Z : T)` with `x = X/Z`, `y = Y/Z` and `x·y = T/Z`. The addition law
has no exceptions on this curve. -/
namespace ByteFormula.Edwards

def p : Nat := (1 <<< 255) - 19

def order : Nat := (1 <<< 252) + 27742317777372353535851937790883648493

def sub (a b : Nat) : Nat :=
  (a + (p - b % p)) % p

/-- The power of a field element; `bits` is the number of binary digits of the exponent. -/
def power (base exponent : Nat) : (bits : Nat) → Nat
  | 0 => 1
  | bits + 1 =>
    let half := power base (exponent / 2) bits
    let square := half * half % p
    if exponent % 2 = 1 then square * base % p else square

/-- The inverse of a field element; that of zero is zero. -/
def inverse (a : Nat) : Nat :=
  power a (p - 2) 255

def d : Nat :=
  sub 0 (121665 * inverse 121666 % p)

def rootOfMinusOne : Nat :=
  power 2 ((p - 1) / 4) 255

structure Point where
  x : Nat
  y : Nat
  z : Nat
  t : Nat

namespace Point

def zero : Point := ⟨0, 1, 1, 0⟩

def add (a b : Point) : Point :=
  let m := sub a.y a.x * sub b.y b.x % p
  let n := (a.y + a.x) * (b.y + b.x) % p
  let u := 2 * d * a.t % p * b.t % p
  let v := 2 * a.z * b.z % p
  let e := sub n m
  let f := sub v u
  let g := (v + u) % p
  let h := (n + m) % p
  ⟨e * f % p, g * h % p, f * g % p, e * h % p⟩

def neg (a : Point) : Point :=
  ⟨sub 0 a.x, a.y, a.z, sub 0 a.t⟩

/-- A multiple of a point; `bits` is the number of binary digits of the factor. -/
def mul (a : Point) (factor : Nat) : (bits : Nat) → Point
  | 0 => zero
  | bits + 1 =>
    let half := mul a (factor / 2) bits
    let double := half.add half
    if factor % 2 = 1 then double.add a else double

def isZero (a : Point) : Bool :=
  a.x % p == 0 && sub a.y a.z == 0

def hasSmallOrder (a : Point) : Bool :=
  (a.mul 8 4).isZero

/-- The 32 bytes of a point: its `y`, with the parity of its `x` in the highest bit. -/
def encode (a : Point) : Bytes :=
  let i := inverse a.z
  Bytes.ofNatLittle 32 (a.y * i % p + ((a.x * i % p % 2) <<< 255))

def quotientRoot? (u v : Nat) : Option Nat :=
  let v3 := v * v % p * v % p
  let v7 := v3 * v3 % p * v % p
  let r := u * v3 % p * power (u * v7 % p) ((p - 5) / 8) 252 % p
  let check := v * (r * r % p) % p
  let root? :=
    if check = u % p then some r
    else if check = sub 0 u then some (r * rootOfMinusOne % p)
    else none
  root?.map fun r => if r % 2 = 1 then sub 0 r else r

/-- The point with the given 32 bytes. A `y` above the field is reduced, and the parity of a zero
`x` is not looked at. -/
def decode? (bytes : Bytes) : Option Point :=
  let value := bytes.toNatLittle
  let y := value % (1 <<< 255) % p
  let y2 := y * y % p
  (quotientRoot? (sub y2 1) ((d * y2 + 1) % p)).map fun root =>
    let x := if (value >>> 255) % 2 = 1 then sub 0 root else root
    ⟨x, y, 1, x * y % p⟩

def base : Point :=
  let y := 4 * inverse 5 % p
  (decode? (Bytes.ofNatLittle 32 y)).getD zero

end Point
end ByteFormula.Edwards
