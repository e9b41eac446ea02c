import ByteFormula.Data.LazyArray

/-! Trees of arrays, addressed by paths.

An element is plain data until a path leads into it. It is then read as an array of its own and
kept beside its parent, which holds older bytes of it until the next write-back. A tree that is
asked for its bytes first writes every changed branch back into its parent, the deepest ones
first. -/
namespace ByteFormula

mutual
/-- An array with those of its elements that have been read as arrays. `dirty` says that something
here or below changed since the last write-back, `unwritten` that the parent's element is older
than this array. -/
inductive Tree where
  | node (array : LazyArray) (branches : Branches) (dirty unwritten : Bool)

/-- The elements of an array that have been read as arrays, each under its index. -/
inductive Branches where
  | none
  | branch (index : UInt8) (tree : Tree) (rest : Branches)
end

namespace Branches

def get? (index : UInt8) : Branches → Option Tree
  | .none => Option.none
  | .branch i tree rest => if i = index then some tree else rest.get? index

/-- Puts a tree under an index, in the place of the one kept there. Indices stay in ascending
order. -/
def put (index : UInt8) (tree : Tree) : Branches → Branches
  | .none => .branch index tree .none
  | .branch i old rest =>
    if i = index then .branch i tree rest
    else if index < i then .branch index tree (.branch i old rest)
    else .branch i old (rest.put index tree)

def erase (index : UInt8) : Branches → Branches
  | .none => .none
  | .branch i tree rest =>
    if i = index then rest.erase index else .branch i tree (rest.erase index)

end Branches

namespace Tree

/-- The most elements of an array inside a tree: every index fits a byte of a path. -/
def maxElements : Nat := 255

def ofArray (array : LazyArray) : Tree :=
  .node array .none false false

def empty : Tree :=
  ofArray (.empty maxElements)

def ofBytes (raw : Bytes) : Tree :=
  ofArray (.ofBytes raw maxElements)

def array : Tree → LazyArray
  | .node array _ _ _ => array

def branches : Tree → Branches
  | .node _ branches _ _ => branches

def dirty : Tree → Bool
  | .node _ _ dirty _ => dirty

def unwritten : Tree → Bool
  | .node _ _ _ unwritten => unwritten

def withArray (tree : Tree) (array : LazyArray) : Tree :=
  .node array tree.branches tree.dirty tree.unwritten

def withBranches (tree : Tree) (branches : Branches) : Tree :=
  .node tree.array branches tree.dirty tree.unwritten

def touch (tree : Tree) : Tree :=
  .node tree.array tree.branches true true

def written (tree : Tree) : Tree :=
  .node tree.array tree.branches tree.dirty false

def putBack (tree : Tree) (index : UInt8) (array : LazyArray) :
    Except DataError Unit × LazyArray × Tree :=
  match tree.array.bytes with
  | (.error e, own) => (.error e, array, tree.withArray own)
  | (.ok packed, own) =>
    match array.set index.toNat packed with
    | (.error e, array) => (.error e, array, tree.withArray own)
    | (.ok _, array) => (.ok (), array, (tree.withArray own).written)

end Tree

mutual
/-- Writes every changed branch back into the array. If that fails, what was written until then
stays. -/
def Tree.sync : Tree → Except DataError Unit × Tree
  | .node array branches dirty unwritten =>
    if dirty then
      match Branches.writeBack branches array with
      | (.error e, array, branches) => (.error e, .node array branches dirty unwritten)
      | (.ok _, array, branches) => (.ok (), .node array branches false unwritten)
    else (.ok (), .node array branches dirty unwritten)

/-- Writes the unwritten ones of these branches into the array that they belong to, up to the first
one that cannot be written. -/
def Branches.writeBack : Branches → LazyArray → Except DataError Unit × LazyArray × Branches
  | .none, array => (.ok (), array, .none)
  | .branch index tree rest, array =>
    let outcome : Except DataError Unit × LazyArray × Tree :=
      if tree.unwritten then
        match tree.sync with
        | (.error e, tree) => (.error e, array, tree)
        | (.ok _, tree) => tree.putBack index array
      else (.ok (), array, tree)
    match outcome with
    | (.error e, array, tree) => (.error e, array, .branch index tree rest)
    | (.ok _, array, tree) =>
      match Branches.writeBack rest array with
      | (result, array, rest) => (result, array, .branch index tree rest)
end

namespace Tree

def bytes (tree : Tree) : Except DataError Bytes × Tree :=
  match tree.sync with
  | (.error e, tree) => (.error e, tree)
  | (.ok _, tree) =>
    match tree.array.bytes with
    | (result, array) => (result, tree.withArray array)

abbrev Action (α : Type) := Tree → Except DataError α × Tree

def settle {α : Type} (writes : Bool) (result : Except DataError α) (tree : Tree) :
    Except DataError α × Tree :=
  match result with
  | .ok value => (.ok value, if writes then tree.touch else tree)
  | .error e => (.error e, tree)

/-- Follows a path and acts on the array it leads to. Elements on the way are read as arrays and
kept; `trail` is the path walked so far. With `writes`, an action that succeeds marks all nodes
from its own up to the root. -/
def visit {α : Type} (writes : Bool) (act : Action α) (trail : Path) : Path → Action α
  | [], tree =>
    match tree.array.materialize with
    | .error _ => (.error (.notAnArray trail), tree)
    | .ok array =>
      match act (tree.withArray array) with
      | (result, tree) => settle writes result tree
  | index :: rest, tree =>
    match tree.branches.get? index with
    | some child =>
      match visit writes act (trail.child index) rest child with
      | (result, child) => settle writes result (tree.withBranches (tree.branches.put index child))
    | none =>
      match tree.array.get index.toNat with
      | (.error (.indexOutOfBounds _ _), array) =>
        (.error (.pathNotFound (trail.child index)), tree.withArray array)
      | (.error _, array) => (.error (.notAnArray trail), tree.withArray array)
      | (.ok element, array) =>
        match (LazyArray.ofBytes element maxElements).materialize with
        | .error _ => (.error (.notAnArray (trail.child index)), tree.withArray array)
        | .ok own =>
          match visit writes act (trail.child index) rest (ofArray own) with
          | (result, child) =>
            settle writes result ((tree.withArray array).withBranches (tree.branches.put index child))

def onArray {α : Type} (ask : LazyArray → Except DataError α × LazyArray) : Action α := fun tree =>
  match ask tree.array with
  | (result, array) => (result, tree.withArray array)

/-- The bytes of one element of a node: those of its branch if it has been read as an array. -/
def elementBytes (path : Path) (index : UInt8) : Action Bytes := fun tree =>
  match tree.branches.get? index with
  | some child =>
    match child.bytes with
    | (result, child) => (result, tree.withBranches (tree.branches.put index child))
  | none =>
    match tree.array.get index.toNat with
    | (.error (.indexOutOfBounds _ _), array) => (.error (.pathNotFound path), tree.withArray array)
    | (result, array) => (result, tree.withArray array)

/-- The bytes of the element at a path; the empty path gives the whole tree. -/
def bytesAt (tree : Tree) (path : Path) : Except DataError Bytes × Tree :=
  match path.getLast? with
  | none => tree.bytes
  | some index => visit false (elementBytes path index) [] path.dropLast tree

def lengthAt (tree : Tree) (path : Path) : Except DataError Nat × Tree :=
  visit false (onArray LazyArray.length) [] path tree

def isFullAt (tree : Tree) (path : Path) : Except DataError Bool × Tree :=
  visit false (onArray LazyArray.isFull) [] path tree

/-- Appends data to the array of a node and returns the low byte of its index. -/
def pushElement (data : Bytes) : Action UInt8 := fun tree =>
  match tree.array.push data with
  | (.error e, array) => (.error e, tree.withArray array)
  | (.ok index, array) => (.ok (UInt8.ofNat index), tree.withArray array)

/-- Overwrites an element of the array of a node, and forgets what was read below it. -/
def setElement (index : UInt8) (data : Bytes) : Action Unit := fun tree =>
  match tree.array.set index.toNat data with
  | (.error e, array) => (.error e, tree.withArray array)
  | (.ok _, array) => (.ok (), (tree.withArray array).withBranches (tree.branches.erase index))

def pushAt (tree : Tree) (data : Bytes) (path : Path) : Except DataError UInt8 × Tree :=
  visit true (pushElement data) [] path tree

def setAt (tree : Tree) (index : UInt8) (data : Bytes) (path : Path) :
    Except DataError Unit × Tree :=
  visit true (setElement index data) [] path tree

def pushEmptyAt (tree : Tree) (path : Path) : Except DataError UInt8 × Tree :=
  tree.pushAt Packing.empty path

def pushTreeAt (tree other : Tree) (path : Path) : Except DataError UInt8 × Tree :=
  match other.bytes with
  | (.error e, _) => (.error e, tree)
  | (.ok packed, _) => tree.pushAt packed path

/-- Overwrites an element of the array at a path by the bytes of another tree. -/
def setTreeAt (tree : Tree) (index : UInt8) (other : Tree) (path : Path) :
    Except DataError Unit × Tree :=
  match other.bytes with
  | (.error e, _) => (.error e, tree)
  | (.ok packed, _) => tree.setAt index packed path

def subtreeAt (tree : Tree) (path : Path) : Except DataError Tree × Tree :=
  match tree.bytesAt path with
  | (.error e, tree) => (.error e, tree)
  | (.ok packed, tree) =>
    match (LazyArray.ofBytes packed maxElements).materialize with
    | .error _ => (.error (.notAnArray path), tree)
    | .ok array => (.ok (ofArray array), tree)

end Tree
end ByteFormula
