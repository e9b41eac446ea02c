import ByteFormula.Bytes

/-! The hash functions SHA-256 and SHA-512.

They are one algorithm for words of 32 and of 64 bits. The constants of the first are the upper
halves of those of the second. -/
namespace ByteFormula.Sha2

/-- Words of one width, and the rotations and constants that go with it. -/
structure Family (ω : Type) where
  wordBytes : Nat
  ofNat : Nat → ω
  toNat : ω → Nat
  add : ω → ω → ω
  xor : ω → ω → ω
  and : ω → ω → ω
  not : ω → ω
  rotate : ω → Nat → ω
  shift : ω → Nat → ω
  /-- The rotations of the two functions on the state. -/
  large : (Nat × Nat × Nat) × (Nat × Nat × Nat)
  /-- The two rotations and the shift of the two functions on the message. -/
  small : (Nat × Nat × Nat) × (Nat × Nat × Nat)
  initial : List Nat
  constants : List Nat

structure State (ω : Type) where
  a : ω
  b : ω
  c : ω
  d : ω
  e : ω
  f : ω
  g : ω
  h : ω

/-- The fractional parts of the square roots of the first eight primes, to 64 bits. -/
def squareRoots : List Nat :=
  [0x6a09e667f3bcc908, 0xbb67ae8584caa73b, 0x3c6ef372fe94f82b, 0xa54ff53a5f1d36f1,
   0x510e527fade682d1, 0x9b05688c2b3e6c1f, 0x1f83d9abfb41bd6b, 0x5be0cd19137e2179]

/-- The fractional parts of the cube roots of the first eighty primes, to 64 bits. -/
def cubeRoots : List Nat :=
  [0x428a2f98d728ae22, 0x7137449123ef65cd, 0xb5c0fbcfec4d3b2f, 0xe9b5dba58189dbbc,
   0x3956c25bf348b538, 0x59f111f1b605d019, 0x923f82a4af194f9b, 0xab1c5ed5da6d8118,
   0xd807aa98a3030242, 0x12835b0145706fbe, 0x243185be4ee4b28c, 0x550c7dc3d5ffb4e2,
   0x72be5d74f27b896f, 0x80deb1fe3b1696b1, 0x9bdc06a725c71235, 0xc19bf174cf692694,
   0xe49b69c19ef14ad2, 0xefbe4786384f25e3, 0x0fc19dc68b8cd5b5, 0x240ca1cc77ac9c65,
   0x2de92c6f592b0275, 0x4a7484aa6ea6e483, 0x5cb0a9dcbd41fbd4, 0x76f988da831153b5,
   0x983e5152ee66dfab, 0xa831c66d2db43210, 0xb00327c898fb213f, 0xbf597fc7beef0ee4,
   0xc6e00bf33da88fc2, 0xd5a79147930aa725, 0x06ca6351e003826f, 0x142929670a0e6e70,
   0x27b70a8546d22ffc, 0x2e1b21385c26c926, 0x4d2c6dfc5ac42aed, 0x53380d139d95b3df,
   0x650a73548baf63de, 0x766a0abb3c77b2a8, 0x81c2c92e47edaee6, 0x92722c851482353b,
   0xa2bfe8a14cf10364, 0xa81a664bbc423001, 0xc24b8b70d0f89791, 0xc76c51a30654be30,
   0xd192e819d6ef5218, 0xd69906245565a910, 0xf40e35855771202a, 0x106aa07032bbd1b8,
   0x19a4c116b8d2d0c8, 0x1e376c085141ab53, 0x2748774cdf8eeb99, 0x34b0bcb5e19b48a8,
   0x391c0cb3c5c95a63, 0x4ed8aa4ae3418acb, 0x5b9cca4f7763e373, 0x682e6ff3d6b2b8a3,
   0x748f82ee5defb2fc, 0x78a5636f43172f60, 0x84c87814a1f0ab72, 0x8cc702081a6439ec,
   0x90befffa23631e28, 0xa4506cebde82bde9, 0xbef9a3f7b2c67915, 0xc67178f2e372532b,
   0xca273eceea26619c, 0xd186b8c721c0c207, 0xeada7dd6cde0eb1e, 0xf57d4f7fee6ed178,
   0x06f067aa72176fba, 0x0a637dc5a2c898a6, 0x113f9804bef90dae, 0x1b710b35131c471b,
   0x28db77f523047d84, 0x32caab7b40c72493, 0x3c9ebe0a15c9bebc, 0x431d67c49c100d4c,
   0x4cc5d4becb3e42b6, 0x597f299cfc657e2a, 0x5fcb6fab3ad6faec, 0x6c44198c4a475817]

def family64 : Family UInt64 where
  wordBytes := 8
  ofNat := UInt64.ofNat
  toNat := UInt64.toNat
  add := (· + ·)
  xor := (· ^^^ ·)
  and := (· &&& ·)
  not := (~~~ ·)
  rotate word count := (word >>> UInt64.ofNat count) ||| (word <<< UInt64.ofNat (64 - count))
  shift word count := word >>> UInt64.ofNat count
  large := ((28, 34, 39), (14, 18, 41))
  small := ((1, 8, 7), (19, 61, 6))
  initial := squareRoots
  constants := cubeRoots

def family32 : Family UInt32 where
  wordBytes := 4
  ofNat := UInt32.ofNat
  toNat := UInt32.toNat
  add := (· + ·)
  xor := (· ^^^ ·)
  and := (· &&& ·)
  not := (~~~ ·)
  rotate word count := (word >>> UInt32.ofNat count) ||| (word <<< UInt32.ofNat (32 - count))
  shift word count := word >>> UInt32.ofNat count
  large := ((2, 13, 22), (6, 11, 25))
  small := ((7, 18, 3), (17, 19, 10))
  initial := squareRoots.map (· >>> 32)
  constants := (cubeRoots.take 64).map (· >>> 32)

variable {ω : Type}

namespace Family

def mixLarge (family : Family ω) (r : Nat × Nat × Nat) (word : ω) : ω :=
  family.xor (family.xor (family.rotate word r.1) (family.rotate word r.2.1))
    (family.rotate word r.2.2)

def mixSmall (family : Family ω) (r : Nat × Nat × Nat) (word : ω) : ω :=
  family.xor (family.xor (family.rotate word r.1) (family.rotate word r.2.1))
    (family.shift word r.2.2)

def extendSchedule (family : Family ω) (words : Array ω) : Array ω :=
  let n := words.size
  let word (back : Nat) : ω := words.getD (n - back) (family.ofNat 0)
  words.push (family.add (family.add (family.mixSmall family.small.2 (word 2)) (word 7))
    (family.add (family.mixSmall family.small.1 (word 15)) (word 16)))

/-- The message schedule of a block: its sixteen words and those made from them. -/
def schedule (family : Family ω) (block : List ω) : Array ω :=
  (List.range (family.constants.length - 16)).foldl (fun words _ => family.extendSchedule words)
    block.toArray

def round (family : Family ω) (s : State ω) (input : ω × Nat) : State ω :=
  let choice := family.xor (family.and s.e s.f) (family.and (family.not s.e) s.g)
  let majority := family.xor (family.xor (family.and s.a s.b) (family.and s.a s.c))
    (family.and s.b s.c)
  let first := family.add (family.add (family.add s.h (family.mixLarge family.large.2 s.e)) choice)
    (family.add (family.ofNat input.2) input.1)
  let second := family.add (family.mixLarge family.large.1 s.a) majority
  ⟨family.add first second, s.a, s.b, s.c, family.add s.d first, s.e, s.f, s.g⟩

def compress (family : Family ω) (s : State ω) (block : List ω) : State ω :=
  let t := ((family.schedule block).toList.zip family.constants).foldl family.round s
  ⟨family.add s.a t.a, family.add s.b t.b, family.add s.c t.c, family.add s.d t.d,
    family.add s.e t.e, family.add s.f t.f, family.add s.g t.g, family.add s.h t.h⟩

def start (family : Family ω) : State ω :=
  let word (i : Nat) : ω := family.ofNat (family.initial.getD i 0)
  ⟨word 0, word 1, word 2, word 3, word 4, word 5, word 6, word 7⟩

/-- The message with a one bit, zeros and its length in bits, up to whole blocks. -/
def pad (family : Family ω) (message : Bytes) : Bytes :=
  let block := 16 * family.wordBytes
  let lengthBytes := 2 * family.wordBytes
  let used := (message.length + 1 + lengthBytes) % block
  message ++ 0x80 :: (List.replicate ((block - used) % block) 0 ++
    Bytes.ofNat lengthBytes (8 * message.length))

def words (family : Family ω) (message : Bytes) : List ω :=
  (Bytes.chunks family.wordBytes message).map fun word => family.ofNat word.toNat

def hash (family : Family ω) (message : Bytes) : Bytes :=
  let s := (Bytes.chunks (16 * family.wordBytes) (family.pad message)).foldl
    (fun s block => family.compress s (family.words block)) family.start
  [s.a, s.b, s.c, s.d, s.e, s.f, s.g, s.h].flatMap fun word =>
    Bytes.ofNat family.wordBytes (family.toNat word)

end Family

def sha256 (message : Bytes) : Bytes :=
  family32.hash message

def sha512 (message : Bytes) : Bytes :=
  family64.hash message

end ByteFormula.Sha2
