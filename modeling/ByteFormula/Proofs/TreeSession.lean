import ByteFormula.Proofs.TreeOperations

/-! Sessions with trees: any number of them, made and used in any order. The answers are those of
plain byte strings, so nobody can tell which arrays have been read, kept or written back. -/
namespace ByteFormula.Session

/-- A request to a session. Trees are named by their position. -/
inductive Request where
  | empty
  | ofBytes (raw : Bytes)
  | bytes (tree : Nat)
  | bytesAt (tree : Nat) (path : Path)
  | lengthAt (tree : Nat) (path : Path)
  | isFullAt (tree : Nat) (path : Path)
  | pushAt (tree : Nat) (data : Bytes) (path : Path)
  | pushEmptyAt (tree : Nat) (path : Path)
  | pushTreeAt (tree other : Nat) (path : Path)
  | setAt (tree : Nat) (index : UInt8) (data : Bytes) (path : Path)
  | setTreeAt (tree : Nat) (index : UInt8) (other : Nat) (path : Path)
  | subtreeAt (tree : Nat) (path : Path)

inductive Answer where
  | bytes (value : Bytes)
  | count (value : Nat)
  | truth (value : Bool)
  | index (value : UInt8)
  | done
  | tree (position : Nat)
  | failed (error : DataError)
  /-- There is no tree at a position that the request names. -/
  | absent
  deriving DecidableEq, Repr

namespace Answer

def ofResult {α : Type} (wrap : α → Answer) : Except DataError α → Answer
  | .ok value => wrap value
  | .error e => .failed e

/-- Whether a limit of the format is reported: a full array, or data or an array too long for it. -/
def isLimit : Answer → Bool
  | .failed e => e.isLimit
  | _ => false

end Answer

def on {α : Type} (trees : List Tree) (position : Nat) (wrap : α → Answer)
    (act : Tree → Except DataError α × Tree) : Answer × List Tree :=
  match trees[position]? with
  | none => (.absent, trees)
  | some tree =>
    match act tree with
    | (result, tree) => (.ofResult wrap result, trees.set position tree)

/-- Acts on the tree at a position with the help of another, which is written back on the way. -/
def onWith {α : Type} (trees : List Tree) (position other : Nat) (wrap : α → Answer)
    (act : Tree → Tree → Except DataError α × Tree) : Answer × List Tree :=
  match trees[other]? with
  | none => (.absent, trees)
  | some source => on (trees.set other source.bytes.2) position wrap fun tree => act tree source

def step (trees : List Tree) : Request → Answer × List Tree
  | .empty => (.tree trees.length, trees ++ [Tree.empty])
  | .ofBytes raw => (.tree trees.length, trees ++ [Tree.ofBytes raw])
  | .bytes tree => on trees tree .bytes Tree.bytes
  | .bytesAt tree path => on trees tree .bytes fun tree => tree.bytesAt path
  | .lengthAt tree path => on trees tree .count fun tree => tree.lengthAt path
  | .isFullAt tree path => on trees tree .truth fun tree => tree.isFullAt path
  | .pushAt tree data path => on trees tree .index fun tree => tree.pushAt data path
  | .pushEmptyAt tree path => on trees tree .index fun tree => tree.pushEmptyAt path
  | .pushTreeAt tree other path =>
    onWith trees tree other .index fun tree source => tree.pushTreeAt source path
  | .setAt tree index data path =>
    on trees tree (fun _ => .done) fun tree => tree.setAt index data path
  | .setTreeAt tree index other path =>
    onWith trees tree other (fun _ => .done) fun tree source => tree.setTreeAt index source path
  | .subtreeAt position path =>
    match trees[position]? with
    | none => (.absent, trees)
    | some tree =>
      match tree.subtreeAt path with
      | (.error e, tree) => (.failed e, trees.set position tree)
      | (.ok sub, tree) => (.tree trees.length, trees.set position tree ++ [sub])

def run (trees : List Tree) : List Request → List Answer
  | [] => []
  | request :: rest =>
    match step trees request with
    | (answer, trees) => answer :: run trees rest

def readPlain {α : Type} (raws : List Bytes) (position : Nat) (wrap : α → Answer)
    (ask : Bytes → Except DataError α) : Answer × List Bytes :=
  match raws[position]? with
  | none => (.absent, raws)
  | some raw => (.ofResult wrap (ask raw), raws)

def writePlain {α : Type} (raws : List Bytes) (position : Nat) (wrap : α → Answer)
    (change : Bytes → Except DataError (α × Bytes)) : Answer × List Bytes :=
  match raws[position]? with
  | none => (.absent, raws)
  | some raw =>
    match change raw with
    | .error e => (.failed e, raws)
    | .ok (answer, changed) => (wrap answer, raws.set position changed)

def writePlainWith {α : Type} (raws : List Bytes) (position other : Nat) (wrap : α → Answer)
    (change : Bytes → Bytes → Except DataError (α × Bytes)) : Answer × List Bytes :=
  match raws[other]? with
  | none => (.absent, raws)
  | some source => writePlain raws position wrap fun raw => change raw source

def stepPlain (raws : List Bytes) : Request → Answer × List Bytes
  | .empty => (.tree raws.length, raws ++ [Packing.empty])
  | .ofBytes raw => (.tree raws.length, raws ++ [raw])
  | .bytes tree => readPlain raws tree .bytes .ok
  | .bytesAt tree path => readPlain raws tree .bytes fun raw => PlainTree.bytesAt raw path
  | .lengthAt tree path => readPlain raws tree .count fun raw => PlainTree.lengthAt raw path
  | .isFullAt tree path => readPlain raws tree .truth fun raw => PlainTree.isFullAt raw path
  | .pushAt tree data path => writePlain raws tree .index fun raw => PlainTree.pushAt raw data path
  | .pushEmptyAt tree path =>
    writePlain raws tree .index fun raw => PlainTree.pushAt raw Packing.empty path
  | .pushTreeAt tree other path =>
    writePlainWith raws tree other .index fun raw source => PlainTree.pushAt raw source path
  | .setAt tree index data path =>
    writePlain raws tree (fun _ => .done) fun raw => PlainTree.setAt raw index data path
  | .setTreeAt tree index other path =>
    writePlainWith raws tree other (fun _ => .done) fun raw source =>
      PlainTree.setAt raw index source path
  | .subtreeAt position path =>
    match raws[position]? with
    | none => (.absent, raws)
    | some raw =>
      match PlainTree.subtreeAt raw path with
      | .error e => (.failed e, raws)
      | .ok found => (.tree raws.length, raws ++ [found])

def runPlain (raws : List Bytes) : List Request → List Answer
  | [] => []
  | request :: rest =>
    match stepPlain raws request with
    | (answer, raws) => answer :: runPlain raws rest

/-- The trees stand for the byte strings at their positions. -/
structure Matches (trees : List Tree) (raws : List Bytes) : Prop where
  length : trees.length = raws.length
  represents : ∀ {position : Nat} {tree : Tree} {raw : Bytes}, trees[position]? = some tree →
    raws[position]? = some raw → tree.Represents raw

namespace Matches

variable {trees : List Tree} {raws : List Bytes}

theorem lookup_none (h : Matches trees raws) {position : Nat} (hnone : raws[position]? = none) :
    trees[position]? = none := by
  rw [List.getElem?_eq_none_iff] at hnone ⊢
  rw [h.length]
  exact hnone

theorem lookup_some (h : Matches trees raws) {position : Nat} {raw : Bytes}
    (hsome : raws[position]? = some raw) :
    ∃ tree, trees[position]? = some tree ∧ tree.Represents raw := by
  have hlt : position < trees.length := h.length ▸ (List.getElem?_eq_some_iff.mp hsome).1
  have htree := List.getElem?_eq_getElem hlt
  exact ⟨_, htree, h.represents htree hsome⟩

theorem set (h : Matches trees raws) (position : Nat) {tree : Tree} {raw : Bytes}
    (hraw : tree.Represents raw) : Matches (trees.set position tree) (raws.set position raw) where
  length := by rw [List.length_set, List.length_set, h.length]
  represents {i other bytes} hother hbytes := by
    rw [List.getElem?_set] at hother hbytes
    split at hother
    · rw [if_pos ‹_›] at hbytes
      grind
    · rw [if_neg ‹_›] at hbytes
      exact h.represents hother hbytes

/-- A tree may be replaced by another that stands for the same. -/
theorem keep (h : Matches trees raws) {position : Nat} {tree : Tree} {raw : Bytes}
    (hsome : raws[position]? = some raw) (hraw : tree.Represents raw) :
    Matches (trees.set position tree) raws := by
  obtain ⟨hlt, rfl⟩ := List.getElem?_eq_some_iff.mp hsome
  have hset := h.set position hraw
  rwa [List.set_getElem_self] at hset

theorem append (h : Matches trees raws) {tree : Tree} {raw : Bytes} (hraw : tree.Represents raw) :
    Matches (trees ++ [tree]) (raws ++ [raw]) where
  length := by simp [h.length]
  represents {i other bytes} hother hbytes := by
    rw [List.getElem?_append] at hother hbytes
    split at hother
    · rw [if_pos (h.length ▸ ‹_›)] at hbytes
      exact h.represents hother hbytes
    · rw [if_neg (h.length ▸ ‹_›), ← h.length] at hbytes
      simp only [List.getElem?_singleton] at hother hbytes
      grind

end Matches

/-- Unless the plain answer reports a limit of the format, the two answers are the same and the
trees still match. -/
def Agree (lazy : Answer × List Tree) (plain : Answer × List Bytes) : Prop :=
  plain.1.isLimit = false → lazy.1 = plain.1 ∧ Matches lazy.2 plain.2

section
variable {α : Type} {trees : List Tree} {raws : List Bytes} (position : Nat) (wrap : α → Answer)

private theorem on_agree_readPlain (h : Matches trees raws) {act : Tree → Except DataError α × Tree}
    {ask : Bytes → Except DataError α}
    (hact : ∀ {tree : Tree} {raw : Bytes}, tree.Represents raw →
      ∃ after, act tree = (ask raw, after) ∧ after.Represents raw) :
    Agree (on trees position wrap act) (readPlain raws position wrap ask) := by
  intro _
  unfold on readPlain
  cases hraw : raws[position]? with
  | none =>
    rw [h.lookup_none hraw]
    exact ⟨rfl, h⟩
  | some raw =>
    obtain ⟨tree, htree, hrep⟩ := h.lookup_some hraw
    obtain ⟨after, hrun, hafter⟩ := hact hrep
    simp only [htree, hrun, true_and]
    exact h.keep hraw hafter

private theorem on_agree_writePlain (h : Matches trees raws)
    {act : Tree → Except DataError α × Tree} {change : Bytes → Except DataError (α × Bytes)}
    (hact : ∀ {tree : Tree} {raw : Bytes}, tree.Represents raw →
      Tree.Mirrors false raw tree.unwritten (change raw) (act tree)) :
    Agree (on trees position wrap act) (writePlain raws position wrap change) := by
  unfold on writePlain
  cases hraw : raws[position]? with
  | none =>
    rw [h.lookup_none hraw]
    exact fun _ => ⟨rfl, h⟩
  | some raw =>
    obtain ⟨tree, htree, hrep⟩ := h.lookup_some hraw
    have hmirrors := hact hrep
    simp only [htree]
    generalize act tree = run at hmirrors ⊢
    obtain ⟨result, after⟩ := run
    cases hchange : change raw with
    | error e =>
      rw [hchange] at hmirrors
      intro hlimit
      rcases hmirrors with ⟨rfl, hkept⟩ | ⟨hlong, -⟩
      · obtain ⟨hafter, -⟩ := hkept (.inr (DataError.isFull_of_isLimit hlimit))
        exact ⟨rfl, h.keep hraw hafter⟩
      · cases hlong.symm.trans hlimit
    | ok changed =>
      obtain ⟨answer, packed⟩ := changed
      rw [hchange] at hmirrors
      obtain ⟨rfl, hafter, -⟩ := hmirrors
      exact fun _ => ⟨rfl, h.set position hafter⟩

private theorem onWith_agree_writePlainWith (h : Matches trees raws) (other : Nat)
    {act : Tree → Tree → Except DataError α × Tree}
    {change : Bytes → Bytes → Except DataError (α × Bytes)}
    (hact : ∀ {tree source : Tree} {raw packed : Bytes}, tree.Represents raw →
      source.Represents packed →
        Tree.Mirrors false raw tree.unwritten (change raw packed) (act tree source)) :
    Agree (onWith trees position other wrap act)
      (writePlainWith raws position other wrap change) := by
  unfold onWith writePlainWith
  cases hraw : raws[other]? with
  | none =>
    rw [h.lookup_none hraw]
    exact fun _ => ⟨rfl, h⟩
  | some packed =>
    obtain ⟨source, hsource, hrep⟩ := h.lookup_some hraw
    obtain ⟨after, hbytes, hafter⟩ := hrep.bytes
    simp only [hsource, hbytes]
    exact on_agree_writePlain position wrap (h.keep hraw hafter) fun htree => hact htree hrep

end

/-- One request: the answers are the same, and the trees still stand for the byte strings. -/
theorem step_agree_stepPlain {trees : List Tree} {raws : List Bytes} (h : Matches trees raws)
    (request : Request) : Agree (step trees request) (stepPlain raws request) := by
  cases request with
  | empty => exact fun _ => ⟨congrArg Answer.tree h.length, h.append Tree.standsFor_empty⟩
  | ofBytes raw =>
    exact fun _ => ⟨congrArg Answer.tree h.length, h.append (Tree.standsFor_ofBytes raw)⟩
  | bytes tree => exact on_agree_readPlain tree _ h fun hrep => hrep.bytes
  | bytesAt tree path => exact on_agree_readPlain tree _ h fun hrep => hrep.bytesAt path
  | lengthAt tree path => exact on_agree_readPlain tree _ h fun hrep => hrep.lengthAt path
  | isFullAt tree path => exact on_agree_readPlain tree _ h fun hrep => hrep.isFullAt path
  | pushAt tree data path => exact on_agree_writePlain tree _ h fun hrep => hrep.pushAt data path
  | pushEmptyAt tree path =>
    exact on_agree_writePlain tree _ h fun hrep => hrep.pushAt Packing.empty path
  | pushTreeAt tree other path =>
    refine onWith_agree_writePlainWith tree _ h other fun hrep hsource => ?_
    obtain ⟨after, hbytes, -⟩ := hsource.bytes
    simp only [Tree.pushTreeAt, hbytes]
    exact hrep.pushAt _ path
  | setAt tree index data path =>
    exact on_agree_writePlain tree _ h fun hrep => hrep.setAt index data path
  | setTreeAt tree index other path =>
    refine onWith_agree_writePlainWith tree _ h other fun hrep hsource => ?_
    obtain ⟨after, hbytes, -⟩ := hsource.bytes
    simp only [Tree.setTreeAt, hbytes]
    exact hrep.setAt index _ path
  | subtreeAt position path =>
    intro _
    simp only [step, stepPlain]
    cases hraw : raws[position]? with
    | none =>
      rw [h.lookup_none hraw]
      exact ⟨rfl, h⟩
    | some raw =>
      obtain ⟨tree, htree, hrep⟩ := h.lookup_some hraw
      obtain ⟨result, after, hrun, hafter, hresult⟩ := hrep.subtreeAt path
      simp only [htree, hrun]
      cases hfound : PlainTree.subtreeAt raw path with
      | error e =>
        rw [hfound] at hresult
        cases hresult
        exact ⟨rfl, h.keep hraw hafter⟩
      | ok found =>
        rw [hfound] at hresult
        obtain ⟨value, sub, rfl, hvalue, hsub⟩ := hresult
        rw [Tree.rereads_false] at hvalue
        cases hvalue
        exact ⟨congrArg Answer.tree h.length, (h.keep hraw hafter).append hsub⟩

private theorem run_eq_runPlain {trees : List Tree} {raws : List Bytes} (h : Matches trees raws)
    (requests : List Request)
    (hlimit : ∀ answer ∈ runPlain raws requests, answer.isLimit = false) :
    run trees requests = runPlain raws requests := by
  induction requests generalizing trees raws with
  | nil => rfl
  | cons request rest ih =>
    simp only [runPlain, List.mem_cons, forall_eq_or_imp] at hlimit
    obtain ⟨hanswer, hmatches⟩ := step_agree_stepPlain h request hlimit.1
    simp only [run, runPlain]
    rw [hanswer, ih hmatches hlimit.2]

/-- A session answers every request as plain byte strings do, with the same value or the same error
and path, as long as no answer of theirs reports a limit of the format: a full array, or data or a
packed array of more than `2 ^ 32 - 1` bytes. So no read changes a later answer, whether it failed
or not. -/
theorem lazy_answers_eq_plain (requests : List Request)
    (hlimit : ∀ answer ∈ runPlain [] requests, answer.isLimit = false) :
    run [] requests = runPlain [] requests :=
  run_eq_runPlain ⟨rfl, fun habsurd => by cases habsurd⟩ requests hlimit

/-- Reads and writes of a tree over bytes that `pack` would not write, through branches that come
and go, and with a copy that is put back in two places. -/
def interleaved : List Request :=
  [.ofBytes [0x80, 1, 0, 2, 0, 0], .lengthAt 0 [0], .bytesAt 0 [0, 3], .pushAt 0 [7, 7] [0],
    .bytesAt 0 [0], .pushEmptyAt 0 [], .subtreeAt 0 [0], .setAt 0 0 [9] [], .bytesAt 0 [0, 0],
    .pushTreeAt 0 1 [1], .bytes 0, .setTreeAt 0 0 1 [], .isFullAt 0 [0], .setAt 0 9 [1] [1],
    .bytes 0]

theorem lazy_answers_eq_plain_interleaved :
    (∀ answer ∈ runPlain [] interleaved, answer.isLimit = false) ∧
      run [] interleaved = runPlain [] interleaved :=
  ⟨by decide, lazy_answers_eq_plain interleaved (by decide)⟩

end ByteFormula.Session
