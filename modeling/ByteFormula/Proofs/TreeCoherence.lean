import ByteFormula.Proofs.TreeSession

/-! Two reads of the same data agree. Whatever was asked of a session, the bytes read at a path are
the element that the bytes of the array above have there, and those found by parsing the bytes of
the whole tree. There is one exception: a full array that refuses an element forgets the bytes it
came from. From then on it answers with its elements packed anew, while the array above still has
the old bytes. -/
namespace ByteFormula

namespace Tree

/-- Whether the tree cannot be packed, since an array in it is too long to be an element. -/
def isOverlong (tree : Tree) : Bool :=
  match tree.bytes.1 with
  | .error (.elementTooLong _) => true
  | _ => false

theorem Overlong.isOverlong {tree : Tree} (h : tree.Overlong) : tree.isOverlong = true := by
  obtain ⟨length, hsync⟩ := h
  rcases hfailed : tree.sync with ⟨result, after⟩
  rw [hfailed] at hsync
  cases hsync
  simp only [Tree.isOverlong, bytes, hfailed]

/-- The reads of a tree agree up to byte strings that are `similar`. What is read below a path is an
element of the array read at the path, no matter which of the two is read first; and every read is
what parsing the bytes of the whole tree gives, with the same value or the same error. -/
structure Coherent (similar : Bytes → Bytes → Prop) (tree : Tree) : Prop where
  element : ∀ (path : Path) (index : UInt8) (value : Bytes),
    (tree.bytesAt (path.child index)).1 = .ok value →
    ∀ reader ∈ [tree, (tree.bytesAt (path.child index)).2], ∃ raw elements own,
      (reader.bytesAt path).1 = .ok raw ∧ Packing.unpack maxElements raw = .ok elements ∧
      elements[index.toNat]? = some own ∧ similar own value
  parsed : ∃ whole, tree.bytes.1 = .ok whole ∧
    ∀ path, Answers similar (PlainTree.bytesAt whole path) (tree.bytesAt path).1

private theorem StandsFor.coherent {loose : Bool} {tree : Tree} {raw : Bytes}
    (h : tree.StandsFor loose raw) : tree.Coherent (Rereads loose) where
  element path index value hvalue reader hreader := by
    obtain ⟨result, later, hrun, hanswers, hlater⟩ := h.bytesAt (path.child index)
    rw [hrun] at hvalue hreader
    cases (show result = .ok value from hvalue)
    obtain ⟨own, hown, hsimilar⟩ := hanswers.to_ok
    obtain ⟨array, now, harray, hnow, hindex⟩ := PlainTree.bytesAt_child_eq_ok hown
    -- Both trees stand for the same bytes, so it does not matter which one is asked.
    have hstands : reader.StandsFor loose raw := by
      rcases List.mem_cons.mp hreader with rfl | hsecond
      · exact h
      · cases List.mem_singleton.mp hsecond
        exact hlater
    obtain ⟨above, after, habove, hagree, -⟩ := hstands.bytesAt path
    rw [harray] at hagree
    obtain ⟨bytes, rfl, hbytes⟩ := hagree.of_ok
    exact ⟨bytes, now, own, by rw [habove], hbytes.unpack_eq.trans hnow, hindex, hsimilar⟩
  parsed := by
    obtain ⟨whole, after, hbytes, hwhole, -⟩ := h.bytes
    refine ⟨whole, by rw [hbytes], fun path => ?_⟩
    cases hlast : path.getLast? with
    | none =>
      simp only [PlainTree.bytesAt, Tree.bytesAt, hlast, hbytes]
      exact Or.inl rfl
    | some index =>
      obtain ⟨result, later, hrun, hanswers, -⟩ := h.bytesAt path
      simp only [PlainTree.bytesAt, hlast, hrun] at hanswers ⊢
      rwa [PlainTree.read_congr _ _ _ hwhole.unpack_eq]

end Tree

namespace Session

def Answer.isFull : Answer → Bool
  | .failed e => e.isFull
  | _ => false

def after (trees : List Tree) : List Request → List Tree
  | [] => trees
  | request :: rest => after (step trees request).2 rest

def states (trees : List Tree) : List Request → List (List Tree)
  | [] => [trees]
  | request :: rest => trees :: states (step trees request).2 rest

def Sound (loose : Bool) (trees : List Tree) : Prop :=
  ∀ tree ∈ trees, ∃ raw, tree.StandsFor loose raw

/-- A step that is not one of the exceptions: no full array, unless that is allowed for, and no
array too long to be packed. -/
def Regular (loose : Bool) (outcome : Answer × List Tree) : Prop :=
  (loose = true ∨ outcome.1.isFull = false) ∧ ∀ tree ∈ outcome.2, tree.isOverlong = false

/-- An operation on a tree leaves one that stands for something, if that is to be expected. -/
def Keeps {α : Type} (loose : Bool) (outcome : Except DataError α × Tree) : Prop :=
  (loose = true ∨ ∀ e, outcome.1 = .error e → e.isFull = false) → outcome.2.isOverlong = false →
    ∃ raw, outcome.2.StandsFor loose raw

section
variable {loose : Bool} {trees : List Tree}

theorem Sound.set (h : Sound loose trees) (position : Nat) {tree : Tree} {raw : Bytes}
    (hraw : tree.StandsFor loose raw) : Sound loose (trees.set position tree) := by
  intro other hother
  rcases List.mem_or_eq_of_mem_set hother with hold | rfl
  · exact h other hold
  · exact ⟨raw, hraw⟩

theorem Sound.append (h : Sound loose trees) {tree : Tree} {raw : Bytes}
    (hraw : tree.StandsFor loose raw) : Sound loose (trees ++ [tree]) := by
  intro other hother
  rcases List.mem_append.mp hother with hold | hnew
  · exact h other hold
  · cases List.mem_singleton.mp hnew
    exact ⟨raw, hraw⟩

theorem Sound.lookup (h : Sound loose trees) {position : Nat} {tree : Tree}
    (htree : trees[position]? = some tree) : ∃ raw, tree.StandsFor loose raw :=
  h tree (List.mem_of_getElem? htree)

private theorem keeps_of_standsFor {α : Type} {raw : Bytes} {outcome : Except DataError α × Tree}
    {result : Except DataError α} {after : Tree} (hrun : outcome = (result, after))
    (h : after.StandsFor loose raw) : Keeps loose outcome := by
  subst hrun
  exact fun _ _ => ⟨raw, h⟩

/-- A write that mirrors the plain one leaves a tree that stands for what the plain one leaves. -/
theorem keeps_of_mirrors {α : Type} {raw : Bytes} {mark : Bool}
    {plain : Except DataError (α × Bytes)} {outcome : Except DataError α × Tree}
    (h : Tree.Mirrors loose raw mark plain outcome) : Keeps loose outcome := by
  obtain ⟨result, after⟩ := outcome
  intro hfull hsize
  cases plain with
  | ok changed => exact ⟨_, h.2.1⟩
  | error e =>
    rcases h with ⟨rfl, hkept⟩ | ⟨-, -, hlong, -⟩
    · exact ⟨raw, (hkept (hfull.imp_right fun hnever => hnever e rfl)).1⟩
    · cases hlong.isOverlong.symm.trans hsize

private theorem on_sound {α : Type} (h : Sound loose trees) (position : Nat) (wrap : α → Answer)
    {act : Tree → Except DataError α × Tree}
    (hact : ∀ {tree : Tree} {raw : Bytes}, tree.StandsFor loose raw → Keeps loose (act tree))
    (hregular : Regular loose (on trees position wrap act)) :
    Sound loose (on trees position wrap act).2 := by
  unfold on at hregular ⊢
  cases htree : trees[position]? with
  | none => exact h
  | some tree =>
    obtain ⟨raw, hraw⟩ := h.lookup htree
    have hkeeps := hact hraw
    simp only [htree] at hregular ⊢
    generalize act tree = outcome at hkeeps hregular ⊢
    obtain ⟨result, after⟩ := outcome
    obtain ⟨hfull, hsize⟩ := hregular
    have hlt := (List.getElem?_eq_some_iff.mp htree).1
    have hroom : loose = true ∨ ∀ e, result = .error e → e.isFull = false := by
      refine hfull.imp_right fun hanswer e he => ?_
      subst he
      exact hanswer
    obtain ⟨raw', hraw'⟩ := hkeeps hroom (hsize after (List.mem_set hlt after))
    exact h.set position hraw'

private theorem onWith_sound {α : Type} (h : Sound loose trees) (position other : Nat)
    (wrap : α → Answer) {act : Tree → Tree → Except DataError α × Tree}
    (hact : ∀ {tree source : Tree} {raw packed : Bytes}, tree.StandsFor loose raw →
      source.StandsFor loose packed → Keeps loose (act tree source))
    (hregular : Regular loose (onWith trees position other wrap act)) :
    Sound loose (onWith trees position other wrap act).2 := by
  unfold onWith at hregular ⊢
  cases hsource : trees[other]? with
  | none => exact h
  | some source =>
    obtain ⟨packed, hpacked⟩ := h.lookup hsource
    obtain ⟨value, after, hbytes, -, hafter, -⟩ := hpacked.bytes
    simp only [hsource, hbytes] at hregular ⊢
    exact on_sound (h.set other hafter) position wrap (fun htree => hact htree hpacked) hregular

/-- One request: trees that stand for something go on doing so. -/
theorem step_sound (h : Sound loose trees) (request : Request)
    (hregular : Regular loose (step trees request)) : Sound loose (step trees request).2 := by
  cases request with
  | empty => exact h.append Tree.standsFor_empty
  | ofBytes raw => exact h.append (Tree.standsFor_ofBytes raw)
  | bytes tree =>
    refine on_sound h tree _ (fun hraw => ?_) hregular
    obtain ⟨value, after, hrun, -, hafter, -⟩ := hraw.bytes
    exact keeps_of_standsFor hrun hafter
  | bytesAt tree path =>
    refine on_sound h tree _ (fun hraw => ?_) hregular
    obtain ⟨result, after, hrun, -, hafter⟩ := hraw.bytesAt path
    exact keeps_of_standsFor hrun hafter
  | lengthAt tree path =>
    refine on_sound h tree _ (fun hraw => ?_) hregular
    obtain ⟨after, hrun, hafter⟩ := hraw.lengthAt path
    exact keeps_of_standsFor hrun hafter
  | isFullAt tree path =>
    refine on_sound h tree _ (fun hraw => ?_) hregular
    obtain ⟨after, hrun, hafter⟩ := hraw.isFullAt path
    exact keeps_of_standsFor hrun hafter
  | pushAt tree data path =>
    exact on_sound h tree _ (fun hraw => keeps_of_mirrors (hraw.pushAt data path)) hregular
  | pushEmptyAt tree path =>
    exact on_sound h tree _ (fun hraw => keeps_of_mirrors (hraw.pushAt _ path)) hregular
  | pushTreeAt tree other path =>
    refine onWith_sound h tree other _ (fun hraw hsource => ?_) hregular
    obtain ⟨value, after, hrun, -⟩ := hsource.bytes
    simp only [Tree.pushTreeAt, hrun]
    exact keeps_of_mirrors (hraw.pushAt value path)
  | setAt tree index data path =>
    exact on_sound h tree _ (fun hraw => keeps_of_mirrors (hraw.setAt index data path)) hregular
  | setTreeAt tree index other path =>
    refine onWith_sound h tree other _ (fun hraw hsource => ?_) hregular
    obtain ⟨value, after, hrun, -⟩ := hsource.bytes
    simp only [Tree.setTreeAt, hrun]
    exact keeps_of_mirrors (hraw.setAt index value path)
  | subtreeAt position path =>
    simp only [step]
    cases htree : trees[position]? with
    | none => exact h
    | some tree =>
      obtain ⟨raw, hraw⟩ := h.lookup htree
      obtain ⟨result, after, hrun, hafter, hresult⟩ := hraw.subtreeAt path
      have hkept := h.set position hafter
      simp only [hrun]
      cases result with
      | error e => exact hkept
      | ok sub =>
        cases hfound : PlainTree.subtreeAt raw path with
        | error e =>
          rw [hfound] at hresult
          cases hresult
        | ok found =>
          rw [hfound] at hresult
          obtain ⟨value, sub', hsub, -, hstands⟩ := hresult
          cases hsub
          exact hkept.append hstands

theorem after_sound (h : Sound loose trees) (requests : List Request)
    (hfull : loose = true ∨ ∀ answer ∈ run trees requests, answer.isFull = false)
    (hsize : ∀ state ∈ states trees requests, ∀ tree ∈ state, tree.isOverlong = false) :
    Sound loose (after trees requests) := by
  induction requests generalizing trees with
  | nil => exact h
  | cons request rest ih =>
    simp only [run, states, List.mem_cons, forall_eq_or_imp] at hfull hsize
    have hfirst : ∀ tree ∈ (step trees request).2, tree.isOverlong = false := by
      apply hsize.2
      cases rest <;> simp [states]
    have hstep := step_sound h request ⟨hfull.imp_right And.left, hfirst⟩
    exact ih hstep (hfull.imp_right And.right) hsize.2

end

/-- Whatever was asked of a session, as long as no array in it grew too long to be packed: the reads
of each of its trees agree, except that a full array may be read as `pack` writes its elements where
the array above has another packed form of them. Without a refusal for a full array they agree
exactly. -/
theorem reads_coherent (requests : List Request)
    (hsize : ∀ state ∈ states [] requests, ∀ tree ∈ state, tree.isOverlong = false) (tree : Tree)
    (htree : tree ∈ after [] requests) :
    tree.Coherent (fun own value => value = own ∨ Tree.Repacked own value) ∧
      ((∀ answer ∈ run [] requests, answer.isFull = false) →
        tree.Coherent fun own value => value = own) := by
  have hsound (loose : Bool)
      (hfull : loose = true ∨ ∀ answer ∈ run [] requests, answer.isFull = false) :
      tree.Coherent (Tree.Rereads loose) := by
    have hnone : Sound loose [] := nofun
    obtain ⟨raw, hraw⟩ := after_sound hnone requests hfull hsize tree htree
    exact hraw.coherent
  constructor
  · have hloose := hsound true (.inl rfl)
    rwa [Tree.rereads_true] at hloose
  · intro hfull
    have hexact := hsound false (.inr hfull)
    rwa [Tree.rereads_false] at hexact

theorem reads_coherent_interleaved :
    (∀ state ∈ states [] interleaved, ∀ tree ∈ state, tree.isOverlong = false) ∧
      (∀ answer ∈ run [] interleaved, answer.isFull = false) ∧
      ∃ tree ∈ after [] interleaved, tree.Coherent fun own value => value = own := by
  have hsize : ∀ state ∈ states [] interleaved, ∀ tree ∈ state, tree.isOverlong = false := by
    decide +kernel
  have hfull : ∀ answer ∈ run [] interleaved, answer.isFull = false := by decide +kernel
  have hsome : 0 < (after [] interleaved).length := by decide +kernel
  obtain ⟨tree, htree⟩ := List.exists_mem_of_length_pos hsome
  exact ⟨hsize, hfull, tree, htree, (reads_coherent interleaved hsize tree htree).2 hfull⟩

/-- A full array of empty elements with length fields of one byte, where `pack` would write none. -/
def wideArray : Bytes :=
  0x40 :: 0xff :: List.replicate Tree.maxElements 0

def refusal : List Request :=
  [.ofBytes (0x80 :: 0x01 :: 0x01 :: 0x01 :: wideArray), .pushAt 0 [1] [0]]

theorem Answer.ofResult_eq_bytes {result : Except DataError Bytes} {value : Bytes}
    (h : Answer.ofResult .bytes result = .bytes value) : result = .ok value := by
  cases result with
  | error e => cases h
  | ok other =>
    cases h
    rfl

/-- After the refusal the inner array is read with two bytes, and the array above has all of its
257 bytes. -/
theorem refusal_not_coherent :
    (∀ state ∈ states [] refusal, ∀ tree ∈ state, tree.isOverlong = false) ∧
      ∃ tree ∈ after [] refusal, ¬ tree.Coherent fun own value => value = own := by
  refine ⟨by decide +kernel, ?_⟩
  have hreads : (after [] refusal).map (fun tree =>
      (Answer.ofResult .bytes (tree.bytesAt [0]).1, Answer.ofResult .bytes (tree.bytesAt []).1)) =
        [(.bytes [0x00, 0xff], .bytes (0x80 :: 0x01 :: 0x01 :: 0x01 :: wideArray))] := by
    decide +kernel
  have hparse : (Packing.unpack Tree.maxElements
      (0x80 :: 0x01 :: 0x01 :: 0x01 :: wideArray)).toOption = some [wideArray] := by
    decide +kernel
  obtain ⟨tree, htree, hpair⟩ := List.map_eq_singleton_iff.mp hreads
  obtain ⟨hinner, houter⟩ := Prod.mk.inj hpair
  refine ⟨tree, by simp [htree], fun hcoherent => ?_⟩
  obtain ⟨raw, elements, own, hraw, helements, hown, rfl⟩ :=
    hcoherent.element [] 0 [0x00, 0xff] (Answer.ofResult_eq_bytes hinner) tree (by simp)
  cases hraw.symm.trans (Answer.ofResult_eq_bytes houter)
  rw [helements] at hparse
  cases hparse
  exact absurd hown (by decide)

end Session
end ByteFormula
