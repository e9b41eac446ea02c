import ByteFormula.Data.Tree

/-! Trees as plain byte strings. Every operation unpacks the arrays on its path from the root, and
a write packs the changed array and all arrays above it anew. Nothing is kept between operations,
so this is what the operations on a `Tree` have to look like from outside. -/
namespace ByteFormula

/-- An error about the limits of the format: too many elements, or one that is too long. -/
def DataError.isLimit : DataError → Bool
  | .tooManyElements _ => true
  | .elementTooLong _ => true
  | _ => false

namespace PlainTree

def elements (trail : Path) (raw : Bytes) : Except DataError (List Bytes) :=
  match Packing.unpack Tree.maxElements raw with
  | .error _ => .error (.notAnArray trail)
  | .ok elements => .ok elements

def element (trail : Path) (index : UInt8) (elements : List Bytes) : Except DataError Bytes :=
  match elements[index.toNat]? with
  | none => .error (.pathNotFound (trail.child index))
  | some element => .ok element

def read {α : Type} (ask : List Bytes → Except DataError α) (trail : Path) :
    Path → Bytes → Except DataError α
  | [], raw =>
    match elements trail raw with
    | .error e => .error e
    | .ok elements => ask elements
  | index :: rest, raw =>
    match elements trail raw with
    | .error e => .error e
    | .ok elements =>
      match element trail index elements with
      | .error e => .error e
      | .ok own => read ask (trail.child index) rest own

/-- Follows a path, changes the elements of the array it leads to, and packs that array and all
those above it. -/
def write {α : Type} (change : List Bytes → Except DataError (α × List Bytes)) (trail : Path) :
    Path → Bytes → Except DataError (α × Bytes)
  | [], raw =>
    match elements trail raw with
    | .error e => .error e
    | .ok elements =>
      match change elements with
      | .error e => .error e
      | .ok (answer, changed) =>
        match Packing.pack changed with
        | .error e => .error e
        | .ok packed => .ok (answer, packed)
  | index :: rest, raw =>
    match elements trail raw with
    | .error e => .error e
    | .ok elements =>
      match element trail index elements with
      | .error e => .error e
      | .ok own =>
        match write change (trail.child index) rest own with
        | .error e => .error e
        | .ok (answer, changed) =>
          match Packing.pack (elements.set index.toNat changed) with
          | .error e => .error e
          | .ok packed => .ok (answer, packed)

def append (data : Bytes) (elements : List Bytes) : Except DataError (UInt8 × List Bytes) :=
  match LengthClass.forLength data.length with
  | .error e => .error e
  | .ok _ =>
    if Tree.maxElements ≤ elements.length then .error (.tooManyElements Tree.maxElements)
    else .ok (UInt8.ofNat elements.length, elements ++ [data])

def replace (index : UInt8) (data : Bytes) (elements : List Bytes) :
    Except DataError (Unit × List Bytes) :=
  match LengthClass.forLength data.length with
  | .error e => .error e
  | .ok _ =>
    if index.toNat < elements.length then .ok ((), elements.set index.toNat data)
    else .error (.indexOutOfBounds index.toNat elements.length)

def bytesAt (raw : Bytes) (path : Path) : Except DataError Bytes :=
  match path.getLast? with
  | none => .ok raw
  | some index => read (element path.dropLast index) [] path.dropLast raw

def lengthAt (raw : Bytes) (path : Path) : Except DataError Nat :=
  read (fun elements => .ok elements.length) [] path raw

def isFullAt (raw : Bytes) (path : Path) : Except DataError Bool :=
  read (fun elements => .ok (decide (Tree.maxElements ≤ elements.length))) [] path raw

def pushAt (raw data : Bytes) (path : Path) : Except DataError (UInt8 × Bytes) :=
  write (append data) [] path raw

def setAt (raw : Bytes) (index : UInt8) (data : Bytes) (path : Path) :
    Except DataError (Unit × Bytes) :=
  write (replace index data) [] path raw

def subtreeAt (raw : Bytes) (path : Path) : Except DataError Bytes :=
  match bytesAt raw path with
  | .error e => .error e
  | .ok packed =>
    match elements path packed with
    | .error e => .error e
    | .ok _ => .ok packed

/-- A byte string is read through its elements alone. -/
theorem read_congr {α : Type} (ask : List Bytes → Except DataError α) (trail path : Path)
    {raw other : Bytes}
    (h : Packing.unpack Tree.maxElements other = Packing.unpack Tree.maxElements raw) :
    read ask trail path other = read ask trail path raw := by
  cases path <;> simp only [read, elements, h]

theorem read_child {α : Type} (ask : List Bytes → Except DataError α) (trail path : Path)
    (index : UInt8) (raw : Bytes) :
    read ask trail (path.child index) raw =
      match read (element (trail ++ path) index) trail path raw with
      | .error e => .error e
      | .ok own =>
        match elements (trail ++ path.child index) own with
        | .error e => .error e
        | .ok elements => ask elements := by
  induction path generalizing trail raw with
  | nil =>
    simp only [Path.child, List.nil_append, List.append_nil, read]
    cases elements trail raw with
    | error e => rfl
    | ok now => cases element trail index now <;> rfl
  | cons first rest ih =>
    have htrail (more : Path) : trail.child first ++ more = trail ++ first :: more := by
      simp [Path.child]
    have hchild : Path.child (first :: rest) index = first :: Path.child rest index := rfl
    simp only [hchild, read]
    cases elements trail raw with
    | error e => rfl
    | ok now =>
      cases hown : element trail first now with
      | error e => simp only [hown]
      | ok own =>
        simp only [hown]
        rw [ih (trail.child first) own, htrail, htrail]

/-- The bytes below a path are those of an element of the array at the path. -/
theorem bytesAt_child (raw : Bytes) (path : Path) (index : UInt8) :
    bytesAt raw (path.child index) =
      match bytesAt raw path with
      | .error e => .error e
      | .ok own =>
        match elements path own with
        | .error e => .error e
        | .ok elements => element path index elements := by
  have hchild (path : Path) (index : UInt8) :
      bytesAt raw (path.child index) = read (element path index) [] path raw := by
    simp [bytesAt, Path.child]
  rw [hchild]
  rcases List.eq_nil_or_concat path with rfl | ⟨front, last, rfl⟩
  · rfl
  · rw [List.concat_eq_append]
    change read _ [] (Path.child front last) raw = _
    rw [read_child, ← Path.child, hchild]
    rfl

theorem bytesAt_child_eq_ok {raw own : Bytes} {path : Path} {index : UInt8}
    (h : bytesAt raw (path.child index) = .ok own) :
    ∃ array now, bytesAt raw path = .ok array ∧ Packing.unpack Tree.maxElements array = .ok now ∧
      now[index.toNat]? = some own := by
  rw [bytesAt_child] at h
  split at h
  · cases h
  rename_i array harray
  split at h
  · cases h
  rename_i now hnow
  refine ⟨array, now, harray, ?_, ?_⟩
  · unfold elements at hnow
    split at hnow
    · cases hnow
    · cases hnow
      assumption
  · unfold element at h
    split at h
    · cases h
    · cases h
      assumption

end PlainTree
end ByteFormula
