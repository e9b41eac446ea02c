import ByteFormula.Digest.Sha2

/-! The hash function BLAKE3.

The input is cut into chunks of 1024 bytes and each chunk into blocks of 64. The chunks are the
leaves of a binary tree, in which the left side of a node holds the largest power of two of chunks
that leaves something for the right. -/
namespace ByteFormula.Blake3

def initial : Array UInt32 :=
  (Sha2.squareRoots.map fun n => UInt32.ofNat (n >>> 32)).toArray

def permutation : List Nat :=
  [2, 6, 3, 10, 7, 0, 4, 13, 1, 11, 12, 5, 9, 14, 15, 8]

def chunkStart : Nat := 1

def chunkEnd : Nat := 2

def parent : Nat := 4

def root : Nat := 8

structure Node where
  chaining : Array UInt32
  block : Array UInt32
  counter : Nat
  length : Nat
  flags : Nat

def rotate (word count : UInt32) : UInt32 :=
  (word >>> count) ||| (word <<< (32 - count))

def mix (v : Array UInt32) (a b c d : Nat) (x y : UInt32) : Array UInt32 :=
  let word (i : Nat) : UInt32 := v.getD i 0
  let a1 := word a + word b + x
  let d1 := rotate (word d ^^^ a1) 16
  let c1 := word c + d1
  let b1 := rotate (word b ^^^ c1) 12
  let a2 := a1 + b1 + y
  let d2 := rotate (d1 ^^^ a2) 8
  let c2 := c1 + d2
  let b2 := rotate (b1 ^^^ c2) 7
  (((v.setIfInBounds a a2).setIfInBounds b b2).setIfInBounds c c2).setIfInBounds d d2

def round (m v : Array UInt32) : Array UInt32 :=
  let word (i : Nat) : UInt32 := m.getD i 0
  let v := mix v 0 4 8 12 (word 0) (word 1)
  let v := mix v 1 5 9 13 (word 2) (word 3)
  let v := mix v 2 6 10 14 (word 4) (word 5)
  let v := mix v 3 7 11 15 (word 6) (word 7)
  let v := mix v 0 5 10 15 (word 8) (word 9)
  let v := mix v 1 6 11 12 (word 10) (word 11)
  let v := mix v 2 7 8 13 (word 12) (word 13)
  mix v 3 4 9 14 (word 14) (word 15)

def permute (m : Array UInt32) : Array UInt32 :=
  (permutation.map fun i => m.getD i 0).toArray

def rounds : Nat → Array UInt32 → Array UInt32 → Array UInt32
  | 0, _, v => v
  | n + 1, m, v => rounds n (permute m) (round m v)

def Node.compress (node : Node) : Array UInt32 :=
  let tail := [node.counter % 0x100000000, node.counter >>> 32, node.length, node.flags]
  let v := rounds 7 node.block
    (node.chaining ++ initial.take 4 ++ (tail.map UInt32.ofNat).toArray)
  ((List.range 8).map fun i => v.getD i 0 ^^^ v.getD (i + 8) 0).toArray

def blockWords (block : Bytes) : Array UInt32 :=
  let filled := block ++ List.replicate (64 - block.length) 0
  ((Bytes.chunks 4 filled).map fun word => UInt32.ofNat word.toNatLittle).toArray

def chunkNode (counter : Nat) (chaining : Array UInt32) (flags : Nat) : List Bytes → Node
  | [] => ⟨chaining, blockWords [], counter, 0, flags ||| chunkEnd⟩
  | [block] => ⟨chaining, blockWords block, counter, block.length, flags ||| chunkEnd⟩
  | block :: rest =>
    chunkNode counter (Node.compress ⟨chaining, blockWords block, counter, block.length, flags⟩) 0
      rest

def leaves (message : Bytes) : List Node :=
  let chunks := if message = [] then [[]] else Bytes.chunks 1024 message
  chunks.zipIdx.map fun (chunk, counter) =>
    chunkNode counter initial chunkStart (Bytes.chunks 64 chunk)

/-- The top node over a list of leaves. Each level splits them, so their number is fuel enough. -/
def top : (fuel : Nat) → List Node → Node
  | 0, nodes => nodes.headD ⟨initial, blockWords [], 0, 0, 0⟩
  | fuel + 1, nodes =>
    if nodes.length ≤ 1 then nodes.headD ⟨initial, blockWords [], 0, 0, 0⟩
    else
      let left := 1 <<< (nodes.length - 1).log2
      ⟨initial, (top fuel (nodes.take left)).compress ++ (top fuel (nodes.drop left)).compress,
        0, 64, parent⟩

def hash (message : Bytes) : Bytes :=
  let nodes := leaves message
  let node := top nodes.length nodes
  let words := Node.compress { node with flags := node.flags ||| root }
  words.toList.flatMap fun word => Bytes.ofNatLittle 4 word.toNat

end ByteFormula.Blake3
