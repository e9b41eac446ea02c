import ByteFormula.Proofs.CallByNeed
import ByteFormula.Proofs.TreeCoherence

/-! Evaluation leaves the data around it alone. What a program reads of a tree unpacks parts of it
and writes others back, but the tree stands for the same bytes all the time. Trees that stand for
the same bytes cannot be told apart: not by an evaluation, and not by any requests that follow. -/
namespace ByteFormula

variable {σ : Type}

def Surroundings.Respects (surroundings : Surroundings σ) (related : σ → σ → Prop) : Prop :=
  ∀ ⦃state other⦄, related state other → ∀ path, ∃ answer after after',
    surroundings.bytesAt path state = (answer, after) ∧
      surroundings.bytesAt path other = (answer, after') ∧ related after after'

namespace Machine

variable {related : σ → σ → Prop}

structure Alike (related : σ → σ → Prop) (machine other : Machine σ) : Prop where
  frames : other.frames = machine.frames
  state : related machine.state other.state

def Respects (related : σ → σ → Prop) (run : Machine σ → Outcome σ) : Prop :=
  ∀ ⦃machine other⦄, Alike related machine other → ∃ result after after',
    run machine = (result, after) ∧ run other = (result, after') ∧ Alike related after after'

theorem Alike.store {machine other : Machine σ} (h : Alike related machine other)
    (position index : Nat) (value : Bytes) :
    Alike related (machine.store position index value) (other.store position index value) where
  frames := by simp only [Machine.store, h.frames]
  state := h.state

theorem Alike.push {machine other : Machine σ} (h : Alike related machine other) (frame : Frame) :
    Alike related (machine.push frame) (other.push frame) where
  frames := by simp only [Machine.push, h.frames]
  state := h.state

theorem Alike.pop {machine other : Machine σ} (h : Alike related machine other) :
    Alike related machine.pop other.pop where
  frames := by simp only [Machine.pop, h.frames]
  state := h.state

private theorem evaluate_respects {enter : Enter σ}
    (henter : ∀ index args scope, Respects related (enter index args scope)) (reach scope : Nat)
    (formula : Formula) : Respects related (evaluate enter reach scope formula) := by
  intro machine other h
  induction reach generalizing scope formula with
  | zero =>
    cases formula with
    | data bytes => exact ⟨_, machine, other, rfl, rfl, h⟩
    | call index args => exact henter index args scope h
    | argument index => exact ⟨_, machine, other, rfl, rfl, h⟩
  | succ reach ih =>
    cases formula with
    | data bytes => exact ⟨_, machine, other, rfl, rfl, h⟩
    | call index args => exact henter index args scope h
    | argument index =>
      simp only [evaluate, h.frames]
      cases machine.frames[scope]? with
      | none => exact ⟨_, machine, other, rfl, rfl, h⟩
      | some frame =>
        simp only
        cases frame.slots[index]? with
        | none => exact ⟨_, machine, other, rfl, rfl, h⟩
        | some slot =>
          obtain ⟨formula, value⟩ := slot
          cases value with
          | some value => exact ⟨_, machine, other, rfl, rfl, h⟩
          | none =>
            obtain ⟨result, after, after', hrun, hrun', halike⟩ := ih frame.scope formula
            simp only [hrun, hrun']
            cases result with
            | error fault => exact ⟨_, after, after', rfl, rfl, halike⟩
            | ok value => exact ⟨_, _, _, rfl, rfl, halike.store scope index value⟩

private theorem serve_respects {desk : Desk σ}
    (hargument : ∀ index, Respects related (desk.argument index))
    (hreads : desk.surroundings.Respects related) {program : Host σ Bytes} (hpure : program.Pure) :
    Respects related (serve desk program) := by
  intro machine other h
  induction hpure generalizing machine other with
  | done value => exact ⟨_, machine, other, rfl, rfl, h⟩
  | raise fault => exact ⟨_, machine, other, rfl, rfl, h⟩
  | @argument index next hfault _ ih =>
    obtain ⟨result, after, after', hrun, hrun', halike⟩ := hargument index h
    simp only [serve, hrun, hrun']
    cases result with
    | ok value => exact ih value halike
    | error fault =>
      rw [hfault]
      exact ⟨_, after, after', rfl, rfl, halike⟩
  | arity _ ih => exact ih _ h
  | invocationPath _ ih => exact ih _ h
  | @bytesAt path next _ ih =>
    obtain ⟨answer, after, after', hread, hread', hstate⟩ := hreads h.state path
    simp only [serve, hread, hread']
    exact ih answer ⟨h.frames, hstate⟩

private theorem runBody_respects (registry : Registry σ) {surroundings : Surroundings σ}
    {enter : Enter σ} (henter : ∀ index args scope, Respects related (enter index args scope))
    (hreads : surroundings.Respects related) {function : Function σ}
    (hpure : ∀ program, function.body.program? = some program → program.Pure) (arity own : Nat) :
    Respects related (runBody registry surroundings enter function arity own) := by
  intro machine other h
  unfold runBody
  cases hbody : function.body with
  | short program =>
    have hprogram := hpure program (by rw [hbody]; rfl)
    exact serve_respects (fun index => evaluate_respects henter _ _ _) hreads hprogram h
  | long program =>
    have hprogram := hpure program (by rw [hbody]; rfl)
    exact serve_respects (fun index => evaluate_respects henter _ _ _) hreads hprogram h
  | defined formula bytecode => exact evaluate_respects henter _ _ formula h

private theorem call_respects {registry : Registry σ} {surroundings : Surroundings σ}
    (hpure : registry.Hosts Host.Pure) (hreads : surroundings.Respects related)
    (room index : Nat) (args : List Formula) (scope : Nat) :
    Respects related (call registry surroundings room index args scope) := by
  induction room generalizing index args scope with
  | zero =>
    intro machine other h
    unfold call
    cases registry.function? index <;> exact ⟨_, machine, other, rfl, rfl, h⟩
  | succ room ih =>
    intro machine other h
    unfold call
    cases hfunction : registry.function? index with
    | none => exact ⟨_, machine, other, rfl, rfl, h⟩
    | some function =>
      obtain ⟨result, after, after', hrun, hrun', halike⟩ := runBody_respects registry ih hreads
        (fun program hprogram => hpure hfunction hprogram) args.length machine.frames.size
        (h.push (Frame.ofArgs args scope))
      simp only [h.frames, hrun, hrun']
      cases result <;> exact ⟨_, _, _, rfl, rfl, halike.pop⟩

end Machine

namespace Registry

variable {related : σ → σ → Prop} {registry : Registry σ} {surroundings : Surroundings σ}

private theorem evaluate_respects (hpure : registry.Hosts Host.Pure)
    (hreads : surroundings.Respects related) {state other : σ} (h : related state other)
    (formula : Formula) (args : List Bytes) : ∃ result after after',
    registry.evaluate surroundings state formula args = (result, after) ∧
      registry.evaluate surroundings other formula args = (result, after') ∧
      related after after' := by
  have hstart : Machine.Alike related ⟨#[Frame.ofArgs (args.map .data) 0], state⟩
      ⟨#[Frame.ofArgs (args.map .data) 0], other⟩ := ⟨rfl, h⟩
  obtain ⟨result, after, after', hrun, hrun', halike⟩ := Machine.evaluate_respects
    (Machine.call_respects hpure hreads registry.maxCallDepth) 1 0 formula hstart
  simp only [Registry.evaluate, hrun, hrun']
  cases result <;> exact ⟨_, _, _, rfl, rfl, halike.state⟩

private theorem evaluateBytecode_respects (hpure : registry.Hosts Host.Pure)
    (hreads : surroundings.Respects related) {state other : σ} (h : related state other)
    (bytecode : Bytes) (args : List Bytes) : ∃ result after after',
    registry.evaluateBytecode surroundings state bytecode args = (result, after) ∧
      registry.evaluateBytecode surroundings other bytecode args = (result, after') ∧
      related after after' := by
  unfold evaluateBytecode
  split
  · exact ⟨_, state, other, rfl, rfl, h⟩
  cases registry.decode bytecode (some args.length) with
  | error e => exact ⟨_, state, other, rfl, rfl, h⟩
  | ok formula =>
    obtain ⟨result, after, after', hrun, hrun', hrelated⟩ :=
      evaluate_respects hpure hreads h formula args
    simp only [hrun, hrun']
    cases result <;> exact ⟨_, after, after', rfl, rfl, hrelated⟩

end Registry

def Embedded.programs : List (Host σ Bytes) :=
  shortTable.map (·.2.2) ++ longTable.map (·.2.2)

private theorem Embedded.pure_of_mem_programs {program : Host σ Bytes} (h : program ∈ programs) :
    program.Pure := by
  rcases List.mem_append.mp h with hshort | hlong
  · obtain ⟨entry, hentry, rfl⟩ := List.mem_map.mp hshort
    exact (basic_shortTable entry hentry).plain.pure
  · obtain ⟨entry, hentry, rfl⟩ := List.mem_map.mp hlong
    obtain ⟨count, hcount⟩ := Registry.exists_accepts entry.2.1
    exact (basic_longTable entry hentry count hcount).plain.pure

private theorem Registry.embedded_programs {registry : Registry σ} (hok : embedded = .ok registry) :
    registry.Hosts (· ∈ Embedded.programs) := by
  have hall : registry.HostsAt fun _ program => program ∈ Embedded.programs := by
    refine embedded_induction (P := fun r => r.HostsAt fun _ program => program ∈ _) ?_ ?_ ?_ hok
    · intro index function program count hfunction
      simp [function?, empty] at hfunction
    · intro before after index entry hentry h hone
      refine h.insert (fun program count hprogram _ => ?_) hone
      cases hprogram
      exact List.mem_append_left _ (List.mem_map_of_mem hentry)
    · intro before after index entry hentry h hone
      refine h.insert (fun program count hprogram _ => ?_) hone
      cases hprogram
      exact List.mem_append_right _ (List.mem_map_of_mem hentry)
  exact hall.hosts id

def Tree.Twins (raw : Bytes) (tree other : Tree) : Prop :=
  tree.Represents raw ∧ other.Represents raw

private theorem Surroundings.respects_ofTree (path : Option Path) (raw : Bytes) :
    (ofTree path).Respects (Tree.Twins raw) := by
  intro tree other h place
  obtain ⟨after, hread, hafter⟩ := bytesAt_ofTree path h.1 place
  obtain ⟨after', hread', hafter'⟩ := bytesAt_ofTree path h.2 place
  exact ⟨_, after, after', hread, hread', hafter, hafter'⟩

/-- The same operation on two trees: the answers are the same, and the trees are twins again unless
the answer reports a full array or the first tree has become too long. -/
def Tree.Parallel {α : Type} (outcome other : Except DataError α × Tree) : Prop :=
  ∃ result after after', outcome = (result, after) ∧ other = (result, after') ∧
    ((∀ e, result = .error e → e.isFull = false) → after.isOverlong = false →
      ∃ raw, Twins raw after after')

namespace Tree

variable {α : Type} {raw : Bytes} {tree other : Tree}

private theorem parallel_of_read {act : Tree → Except DataError α × Tree}
    {answer : Except DataError α} (hact : ∀ {tree : Tree}, tree.Represents raw →
      ∃ after, act tree = (answer, after) ∧ after.Represents raw) (h : Twins raw tree other) :
    Parallel (act tree) (act other) := by
  obtain ⟨after, hrun, hafter⟩ := hact h.1
  obtain ⟨after', hrun', hafter'⟩ := hact h.2
  exact ⟨answer, after, after', hrun, hrun', fun _ _ => ⟨raw, hafter, hafter'⟩⟩

private theorem parallel_of_mirrors {mark mark' : Bool} {plain : Except DataError (α × Bytes)}
    {outcome outcome' : Except DataError α × Tree} (h : Mirrors false raw mark plain outcome)
    (h' : Mirrors false raw mark' plain outcome') (hsame : outcome'.1 = outcome.1) :
    Parallel outcome outcome' := by
  obtain ⟨result, after⟩ := outcome
  obtain ⟨result', after'⟩ := outcome'
  cases hsame
  refine ⟨result, after, after', rfl, rfl, fun hroom hsize => ?_⟩
  cases plain with
  | ok changed => exact ⟨_, h.2.1, h'.2.1⟩
  | error e =>
    -- The first tree is not too long, so it answers the error, and the second answers the same.
    rcases h with ⟨rfl, hkept⟩ | ⟨-, -, hlong, -⟩
    · rcases h' with ⟨-, hkept'⟩ | ⟨-, ⟨answer, habsurd⟩, -⟩
      · have hfull := hroom e rfl
        exact ⟨raw, (hkept (.inr hfull)).1, (hkept' (.inr hfull)).1⟩
      · cases habsurd
    · cases hlong.isOverlong.symm.trans hsize

theorem Twins.pushAt (h : Twins raw tree other) (data : Bytes) (path : Path) :
    Parallel (tree.pushAt data path) (other.pushAt data path) := by
  refine parallel_of_mirrors (h.1.pushAt data path) (h.2.pushAt data path) ?_
  rw [h.1.pushAt_answer, h.2.pushAt_answer]

theorem Twins.setAt (h : Twins raw tree other) (index : UInt8) (data : Bytes) (path : Path) :
    Parallel (tree.setAt index data path) (other.setAt index data path) := by
  refine parallel_of_mirrors (h.1.setAt index data path) (h.2.setAt index data path) ?_
  rw [h.1.setAt_answer, h.2.setAt_answer]

end Tree

namespace Session

/-- The same request to two sessions: the answers are the same, and unless something exceptional
happened in the first one their trees stand for the same bytes again. -/
def Parallel (outcome other : Answer × List Tree) : Prop :=
  other.1 = outcome.1 ∧
    (Regular false outcome → ∃ raws, Matches outcome.2 raws ∧ Matches other.2 raws)

section

variable {α : Type} {trees others : List Tree} {raws : List Bytes}

private theorem on_parallel (h : Matches trees raws) (h' : Matches others raws) (position : Nat)
    (wrap : α → Answer) {act act' : Tree → Except DataError α × Tree}
    (hact : ∀ {raw tree other}, Tree.Twins raw tree other → Tree.Parallel (act tree) (act' other)) :
    Parallel (on trees position wrap act) (on others position wrap act') := by
  unfold on
  cases hraw : raws[position]? with
  | none =>
    rw [h.lookup_none hraw, h'.lookup_none hraw]
    exact ⟨rfl, fun _ => ⟨raws, h, h'⟩⟩
  | some raw =>
    obtain ⟨tree, htree, hrep⟩ := h.lookup_some hraw
    obtain ⟨other, hother, hrep'⟩ := h'.lookup_some hraw
    obtain ⟨result, after, after', hrun, hrun', hkept⟩ := hact ⟨hrep, hrep'⟩
    simp only [htree, hother, hrun, hrun']
    refine ⟨rfl, fun hregular => ?_⟩
    obtain ⟨hfull, hsize⟩ := hregular
    have hroom : ∀ e, result = .error e → e.isFull = false := by
      rintro e rfl
      exact hfull.resolve_left Bool.false_ne_true
    have hlt := (List.getElem?_eq_some_iff.mp htree).1
    obtain ⟨raw', hafter, hafter'⟩ := hkept hroom (hsize after (List.mem_set hlt after))
    exact ⟨raws.set position raw', h.set position hafter, h'.set position hafter'⟩

private theorem onWith_parallel (h : Matches trees raws) (h' : Matches others raws)
    (position helper : Nat) (wrap : α → Answer) {act : Tree → Tree → Except DataError α × Tree}
    (hact : ∀ {raw packed tree other source source'}, Tree.Twins raw tree other →
      Tree.Twins packed source source' → Tree.Parallel (act tree source) (act other source')) :
    Parallel (onWith trees position helper wrap act) (onWith others position helper wrap act) := by
  unfold onWith
  cases hraw : raws[helper]? with
  | none =>
    rw [h.lookup_none hraw, h'.lookup_none hraw]
    exact ⟨rfl, fun _ => ⟨raws, h, h'⟩⟩
  | some packed =>
    obtain ⟨source, hsource, hrep⟩ := h.lookup_some hraw
    obtain ⟨source', hsource', hrep'⟩ := h'.lookup_some hraw
    obtain ⟨after, hbytes, hafter⟩ := hrep.bytes
    obtain ⟨after', hbytes', hafter'⟩ := hrep'.bytes
    simp only [hsource, hsource', hbytes, hbytes']
    exact on_parallel (h.keep hraw hafter) (h'.keep hraw hafter') position wrap
      fun htwins => hact htwins ⟨hrep, hrep'⟩

/-- One request. -/
theorem step_parallel (h : Matches trees raws) (h' : Matches others raws) (request : Request) :
    Parallel (step trees request) (step others request) := by
  have hlength : others.length = trees.length := h'.length.trans h.length.symm
  cases request with
  | empty =>
    exact ⟨congrArg Answer.tree hlength, fun _ =>
      ⟨_, h.append Tree.standsFor_empty, h'.append Tree.standsFor_empty⟩⟩
  | ofBytes raw =>
    have hfresh := Tree.represents_ofBytes raw
    exact ⟨congrArg Answer.tree hlength, fun _ => ⟨_, h.append hfresh, h'.append hfresh⟩⟩
  | bytes tree => exact on_parallel h h' tree _ (Tree.parallel_of_read fun hrep => hrep.bytes)
  | bytesAt tree path =>
    exact on_parallel h h' tree _ (Tree.parallel_of_read fun hrep => hrep.bytesAt path)
  | lengthAt tree path =>
    exact on_parallel h h' tree _ (Tree.parallel_of_read fun hrep => hrep.lengthAt path)
  | isFullAt tree path =>
    exact on_parallel h h' tree _ (Tree.parallel_of_read fun hrep => hrep.isFullAt path)
  | pushAt tree data path => exact on_parallel h h' tree _ fun htwins => htwins.pushAt data path
  | pushEmptyAt tree path => exact on_parallel h h' tree _ fun htwins => htwins.pushAt _ path
  | pushTreeAt tree other path =>
    refine onWith_parallel h h' tree other _ fun htwins hsource => ?_
    obtain ⟨_, hbytes, -⟩ := hsource.1.bytes
    obtain ⟨_, hbytes', -⟩ := hsource.2.bytes
    simp only [Tree.pushTreeAt, hbytes, hbytes']
    exact htwins.pushAt _ path
  | setAt tree index data path =>
    exact on_parallel h h' tree _ fun htwins => htwins.setAt index data path
  | setTreeAt tree index other path =>
    refine onWith_parallel h h' tree other _ fun htwins hsource => ?_
    obtain ⟨_, hbytes, -⟩ := hsource.1.bytes
    obtain ⟨_, hbytes', -⟩ := hsource.2.bytes
    simp only [Tree.setTreeAt, hbytes, hbytes']
    exact htwins.setAt index _ path
  | subtreeAt position path =>
    simp only [step]
    cases hraw : raws[position]? with
    | none =>
      rw [h.lookup_none hraw, h'.lookup_none hraw]
      exact ⟨rfl, fun _ => ⟨raws, h, h'⟩⟩
    | some raw =>
      obtain ⟨tree, htree, hrep⟩ := h.lookup_some hraw
      obtain ⟨other, hother, hrep'⟩ := h'.lookup_some hraw
      obtain ⟨result, after, hrun, hafter, hresult⟩ := hrep.subtreeAt path
      obtain ⟨result', after', hrun', hafter', hresult'⟩ := hrep'.subtreeAt path
      have hkept := h.keep hraw hafter
      have hkept' := h'.keep hraw hafter'
      simp only [htree, hother, hrun, hrun']
      rw [Tree.rereads_false] at hresult hresult'
      cases hfound : PlainTree.subtreeAt raw path with
      | error e =>
        rw [hfound] at hresult hresult'
        cases hresult
        cases hresult'
        exact ⟨rfl, fun _ => ⟨raws, hkept, hkept'⟩⟩
      | ok found =>
        rw [hfound] at hresult hresult'
        obtain ⟨_, sub, rfl, rfl, hsub⟩ := hresult
        obtain ⟨_, sub', rfl, rfl, hsub'⟩ := hresult'
        exact ⟨congrArg Answer.tree hlength, fun _ => ⟨_, hkept.append hsub, hkept'.append hsub'⟩⟩

/-- Sessions whose trees stand for the same bytes answer the same. -/
theorem run_eq_of_matches (h : Matches trees raws) (h' : Matches others raws)
    (requests : List Request) (hfull : ∀ answer ∈ run trees requests, answer.isFull = false)
    (hsize : ∀ state ∈ states trees requests, ∀ tree ∈ state, tree.isOverlong = false) :
    run others requests = run trees requests := by
  induction requests generalizing trees others raws with
  | nil => rfl
  | cons request rest ih =>
    simp only [run, states, List.mem_cons, forall_eq_or_imp] at hfull hsize ⊢
    have hfirst : ∀ tree ∈ (step trees request).2, tree.isOverlong = false := by
      apply hsize.2
      cases rest <;> simp [states]
    obtain ⟨hanswer, hmatches⟩ := step_parallel h h' request
    obtain ⟨raws', hnext, hnext'⟩ := hmatches ⟨.inr hfull.1, hfirst⟩
    rw [hanswer, ih hnext hnext' hfull.2 hsize.2]

private theorem Sound.exists_matches (h : Sound false trees) : ∃ raws, Matches trees raws := by
  induction trees with
  | nil => exact ⟨[], rfl, fun habsurd => by cases habsurd⟩
  | cons tree rest ih =>
    obtain ⟨raw, hraw⟩ := h tree List.mem_cons_self
    obtain ⟨raws, hmatches⟩ := ih fun other hother => h other (List.mem_cons_of_mem tree hother)
    refine ⟨raw :: raws, congrArg Nat.succ hmatches.length, ?_⟩
    intro position other bytes hother hbytes
    cases position with
    | zero =>
      cases hother
      cases hbytes
      exact hraw
    | succ position => exact hmatches.represents hother hbytes

end

/-- After any session in which no array was reported full or grew too long, a program over embedded
functions and definitions evaluates on a tree of it as on a fresh tree with the same bytes. The
evaluation is not noticed afterwards: as long as such requests follow, they are answered as they
would be without it. -/
theorem evaluation_unnoticed (requests : List Request)
    (hfull : ∀ answer ∈ run [] requests, answer.isFull = false)
    (hsize : ∀ state ∈ states [] requests, ∀ tree ∈ state, tree.isOverlong = false)
    {position : Nat} {tree : Tree} (htree : (after [] requests)[position]? = some tree)
    {registry : Registry Tree} (hhosts : registry.Hosts (· ∈ Embedded.programs))
    (path : Option Path) (bytecode : Bytes) (args : List Bytes) :
    ∃ whole, tree.bytes.1 = .ok whole ∧
      (registry.evaluateBytecode (.ofTree path) tree bytecode args).1 =
        (registry.evaluateBytecode (.ofTree path) (Tree.ofBytes whole) bytecode args).1 ∧
      ∀ further, (∀ answer ∈ run (after [] requests) further, answer.isFull = false) →
        (∀ state ∈ states (after [] requests) further, ∀ tree ∈ state, tree.isOverlong = false) →
        run ((after [] requests).set position
            (registry.evaluateBytecode (.ofTree path) tree bytecode args).2) further =
          run (after [] requests) further := by
  have hnone : Sound false [] := fun _ habsurd => by cases habsurd
  obtain ⟨raws, hmatches⟩ := (after_sound hnone requests (.inr hfull) hsize).exists_matches
  have hlt : position < raws.length := by
    rw [← hmatches.length]
    exact (List.getElem?_eq_some_iff.mp htree).1
  have hraw : raws[position]? = some raws[position] := List.getElem?_eq_getElem hlt
  have hrep := hmatches.represents htree hraw
  have htwins : Tree.Twins raws[position] (Tree.ofBytes raws[position]) tree :=
    ⟨Tree.standsFor_ofBytes _, hrep⟩
  have hpure : registry.Hosts Host.Pure := fun _ _ _ hfunction hprogram =>
    Embedded.pure_of_mem_programs (hhosts hfunction hprogram)
  obtain ⟨result, fresh, after, hfresh, hrun, -, hafter⟩ := Registry.evaluateBytecode_respects hpure
    (Surroundings.respects_ofTree path _) htwins bytecode args
  obtain ⟨_, hbytes, -⟩ := hrep.bytes
  rw [hrun]
  refine ⟨raws[position], by rw [hbytes], by rw [hfresh], fun further hroom hshort => ?_⟩
  exact run_eq_of_matches hmatches (hmatches.keep hraw hafter) further hroom hshort

/-- The embedded functions read an element below a path that other requests have read, written and
copied. -/
theorem evaluation_unnoticed_interleaved :
    (∀ answer ∈ run [] interleaved, answer.isFull = false) ∧
    (∀ state ∈ states [] interleaved, ∀ tree ∈ state, tree.isOverlong = false) ∧
    ∃ registry : Registry Tree, registry.Hosts (· ∈ Embedded.programs) ∧
      ∃ tree whole, (after [] interleaved)[0]? = some tree ∧ tree.bytes.1 = .ok whole ∧
        (registry.evaluateBytecode (.ofTree (some [0])) tree [0x2b, 0x82, 0, 0] []).1 =
          (registry.evaluateBytecode (.ofTree (some [0])) (Tree.ofBytes whole)
            [0x2b, 0x82, 0, 0] []).1 ∧
        run ((after [] interleaved).set 0
            (registry.evaluateBytecode (.ofTree (some [0])) tree [0x2b, 0x82, 0, 0] []).2)
            [.pushAt 0 [1] [0], .bytes 0] =
          run (after [] interleaved) [.pushAt 0 [1] [0], .bytes 0] := by
  have hfull : ∀ answer ∈ run [] interleaved, answer.isFull = false := by decide +kernel
  have hsize : ∀ state ∈ states [] interleaved, ∀ tree ∈ state, tree.isOverlong = false := by
    decide +kernel
  have hlt : 0 < (after [] interleaved).length := by decide +kernel
  have htree : (after [] interleaved)[0]? = some (after [] interleaved)[0] :=
    List.getElem?_eq_getElem hlt
  obtain ⟨registry, hembedded⟩ := Registry.exists_embedded
  have hhosts := Registry.embedded_programs hembedded
  obtain ⟨whole, hwhole, hsame, hfurther⟩ := evaluation_unnoticed interleaved hfull hsize htree
    hhosts (some [0]) [0x2b, 0x82, 0, 0] []
  exact ⟨hfull, hsize, registry, hhosts, _, whole, htree, hwhole, hsame,
    hfurther _ (by decide +kernel) (by decide +kernel)⟩

end Session
end ByteFormula
