import ByteFormula.Proofs.ArenaVisits

/-! Sessions with arenas: any number of them, made and used in any order, with operations that fail
among them. -/
namespace ByteFormula

namespace Session

def Request.steps : Request → Nat
  | .bytesAt _ path | .lengthAt _ path | .isFullAt _ path | .pushAt _ _ path | .pushEmptyAt _ path
  | .pushTreeAt _ _ path | .setAt _ _ _ path | .setTreeAt _ _ _ path | .subtreeAt _ path => path.length
  | .empty | .ofBytes _ | .bytes _ => 0

def stepsOf : List Request → Nat
  | [] => 0
  | request :: rest => request.steps + stepsOf rest

end Session

namespace Arena

open Session (Request Answer)

def perform {α : Type} (arenas : List Arena) (position : Nat) (wrap : α → Answer) (act : Act α) :
    Option (Answer × List Arena) :=
  match arenas[position]? with
  | none => some (.absent, arenas)
  | some arena =>
    (act.run.run arena).map fun outcome =>
      (.ofResult wrap outcome.1, arenas.set position outcome.2)

def performWith {α : Type} (arenas : List Arena) (position other : Nat) (wrap : α → Answer)
    (act : Bytes → Act α) : Option (Answer × List Arena) :=
  match arenas[other]? with
  | none => some (.absent, arenas)
  | some source =>
    (bytes.run.run source).bind fun outcome =>
      perform (arenas.set other outcome.2) position wrap (liftExcept outcome.1 >>= act)

def step (arenas : List Arena) : Request → Option (Answer × List Arena)
  | .empty => some (.tree arenas.length, arenas ++ [ofArray (.empty Tree.maxElements)])
  | .ofBytes raw => some (.tree arenas.length, arenas ++ [ofArray (.ofBytes raw Tree.maxElements)])
  | .bytes tree => perform arenas tree .bytes bytes
  | .bytesAt tree path => perform arenas tree .bytes (bytesAt path)
  | .lengthAt tree path => perform arenas tree .count (lengthAt path)
  | .isFullAt tree path => perform arenas tree .truth (isFullAt path)
  | .pushAt tree data path => perform arenas tree .index (pushAt data path)
  | .pushEmptyAt tree path => perform arenas tree .index (pushAt Packing.empty path)
  | .pushTreeAt tree other path => performWith arenas tree other .index fun data => pushAt data path
  | .setAt tree index data path => perform arenas tree (fun _ => .done) (setAt index data path)
  | .setTreeAt tree index other path =>
    performWith arenas tree other (fun _ => .done) fun data => setAt index data path
  | .subtreeAt position path =>
    match arenas[position]? with
    | none => some (.absent, arenas)
    | some arena =>
      ((subtreeAt path).run.run arena).map fun
        | (.error e, after) => (.failed e, arenas.set position after)
        | (.ok copy, after) => (.tree arenas.length, arenas.set position after ++ [copy])

def run (arenas : List Arena) : List Request → Option (List Answer × List Arena)
  | [] => some ([], arenas)
  | request :: rest =>
    (step arenas request).bind fun outcome =>
      (run outcome.2 rest).map fun later => (outcome.1 :: later.1, later.2)

/-- Every arena of a session is disciplined, and none has taken more slots than there were steps. -/
def Kept (bound : Nat) (arenas : List Arena) : Prop :=
  ∀ arena ∈ arenas, arena.Disciplined ∧ arena.slots ≤ bound

structure Depicts (arenas : List Arena) (trees : List Tree) : Prop where
  length : arenas.length = trees.length
  shows : ∀ {position : Nat} {arena : Arena} {tree : Tree}, arenas[position]? = some arena →
    trees[position]? = some tree → arena.Shows 0 tree

/-- An operation on an arena ends, takes no more slots than its walk has steps, and does what an
operation on trees does. -/
def Performs {α : Type} (steps : Nat) (act : Act α) (on : Tree → Except DataError α × Tree) : Prop :=
  ∀ ⦃arena : Arena⦄, arena.Disciplined → Ends act arena fun result after =>
    Leaves steps arena after ∧ ∀ ⦃tree : Tree⦄, arena.Shows 0 tree →
      result = (on tree).1 ∧ after.Shows 0 (on tree).2

section

variable {α : Type} {steps bound : Nat} {arenas : List Arena} {trees : List Tree}

private theorem performs_of_shows {act : Act α} {on : Tree → Except DataError α × Tree}
    (hends : ∀ {arena}, arena.Disciplined → Ends act arena fun _ after => Leaves steps arena after)
    (hshows : ∀ {arena tree}, arena.Disciplined → arena.Shows 0 tree →
      Ends act arena fun result after => result = (on tree).1 ∧ after.Shows 0 (on tree).2) :
    Performs steps act on := by
  intro arena h
  obtain ⟨result, after, hrun, hleaves⟩ := hends h
  refine ⟨result, after, hrun, hleaves, fun tree htree => ?_⟩
  obtain ⟨same, again, hsame, hshown⟩ := hshows h htree
  cases hrun.symm.trans hsame
  exact hshown

private theorem performs_bytes : Performs 0 bytes Tree.bytes :=
  performs_of_shows (fun h => bytesOf_ends h h.top) fun h htree =>
    (reflects_bytesOf h htree).mono fun _ _ hreflects => hreflects.2.2

private theorem performs_bytesAt (path : Path) :
    Performs path.length (bytesAt path) fun tree => tree.bytesAt path := by
  refine performs_of_shows (fun h => bytesAt_ends h path) fun h htree => ?_
  cases hlast : path.getLast? with
  | none =>
    simp only [bytesAt, Tree.bytesAt, hlast]
    exact (reflects_bytesOf h htree).mono fun _ _ hreflects => hreflects.2.2
  | some index =>
    simp only [bytesAt, Tree.bytesAt, hlast]
    rw [read_eq]
    exact locate_visits (reflects_elementBytes path index) false path.dropLast h htree

private theorem performs_onArray {ask : LazyArray → Except DataError α × LazyArray}
    (hask : ∀ array : LazyArray, array.Evolves (ask array).2) (path : Path) :
    Performs path.length (locate path >>= fun id => onArray id ask)
      (Tree.visit false (Tree.onArray ask) [] path) := by
  refine performs_of_shows (fun h => locate_onArray_ends hask h path) fun h htree => ?_
  rw [read_eq]
  exact locate_visits (reflects_onArray hask) false path h htree

private theorem performs_lengthAt (path : Path) :
    Performs path.length (lengthAt path) fun tree => tree.lengthAt path :=
  performs_onArray (fun array => array.evolves_read _) path

private theorem performs_isFullAt (path : Path) :
    Performs path.length (isFullAt path) fun tree => tree.isFullAt path :=
  performs_onArray (fun array => array.evolves_read _) path

private theorem performs_pushAt (data : Bytes) (path : Path) :
    Performs path.length (pushAt data path) fun tree => tree.pushAt data path := by
  refine performs_of_shows (fun h => pushAt_ends h data path) fun h htree => ?_
  rw [pushAt_eq]
  exact locate_visits (reflects_pushElement data) true path h htree

private theorem performs_setAt (index : UInt8) (data : Bytes) (path : Path) :
    Performs path.length (setAt index data path) fun tree => tree.setAt index data path := by
  refine performs_of_shows (fun h => setAt_ends h index data path) fun h htree => ?_
  rw [setAt_eq]
  exact locate_visits (reflects_setElement index data) true path h htree

theorem Kept.mono {more : Nat} (h : Kept bound arenas) (hmore : bound ≤ more) : Kept more arenas :=
  fun arena harena => ⟨(h arena harena).1, Nat.le_trans (h arena harena).2 hmore⟩

theorem Kept.set (h : Kept bound arenas) {position : Nat} {arena after : Arena}
    (harena : arenas[position]? = some arena) (hafter : Leaves steps arena after) :
    Kept (bound + steps) (arenas.set position after) := by
  intro other hother
  rcases List.mem_or_eq_of_mem_set hother with hold | rfl
  · exact (h.mono (Nat.le_add_right bound steps)) other hold
  · have hbound := (h arena (List.mem_of_getElem? harena)).2
    exact ⟨hafter.disciplined, Nat.le_trans hafter.taken (Nat.add_le_add_right hbound steps)⟩

theorem Kept.append (h : Kept bound arenas) {arena : Arena} (harena : arena.Disciplined)
    (hslots : arena.slots ≤ bound) : Kept bound (arenas ++ [arena]) := by
  intro other hother
  rcases List.mem_append.mp hother with hold | hnew
  · exact h other hold
  · cases List.mem_singleton.mp hnew
    exact ⟨harena, hslots⟩

theorem Depicts.lookup (h : Depicts arenas trees) {position : Nat} {arena : Arena}
    (harena : arenas[position]? = some arena) :
    ∃ tree, trees[position]? = some tree ∧ arena.Shows 0 tree := by
  have hlt : position < trees.length := h.length ▸ (List.getElem?_eq_some_iff.mp harena).1
  have htree := List.getElem?_eq_getElem hlt
  exact ⟨_, htree, h.shows harena htree⟩

theorem Depicts.lookup_none (h : Depicts arenas trees) {position : Nat}
    (hnone : arenas[position]? = none) : trees[position]? = none := by
  rw [List.getElem?_eq_none_iff] at hnone ⊢
  exact h.length ▸ hnone

theorem Depicts.set (h : Depicts arenas trees) (position : Nat) {arena : Arena} {tree : Tree}
    (hshows : arena.Shows 0 tree) :
    Depicts (arenas.set position arena) (trees.set position tree) where
  length := by rw [List.length_set, List.length_set, h.length]
  shows {i other beside} hother hbeside := by
    rw [List.getElem?_set] at hother hbeside
    split at hother
    · rw [if_pos ‹_›] at hbeside
      grind
    · rw [if_neg ‹_›] at hbeside
      exact h.shows hother hbeside

theorem Depicts.append (h : Depicts arenas trees) {arena : Arena} {tree : Tree}
    (hshows : arena.Shows 0 tree) : Depicts (arenas ++ [arena]) (trees ++ [tree]) where
  length := by simp [h.length]
  shows {i other beside} hother hbeside := by
    rw [List.getElem?_append] at hother hbeside
    split at hother
    · rw [if_pos (h.length ▸ ‹_›)] at hbeside
      exact h.shows hother hbeside
    · rw [if_neg (h.length ▸ ‹_›), ← h.length] at hbeside
      simp only [List.getElem?_singleton] at hother hbeside
      grind

private theorem shows_ofArray (array : LazyArray) : (ofArray array).Shows 0 (.ofArray array) := by
  have hnode : (ofArray array).node? 0 = some (.fresh array none) := rfl
  have hsorted : Branches.Sorted .none := .nil
  exact .intro hnode hsorted fun _ => .inl ⟨rfl, rfl⟩

/-- A step of a session, with the step of a session with trees that it stands for. -/
def Steps (steps bound : Nat) (arenas : List Arena) (outcome : Option (Answer × List Arena))
    (plain : List Tree → Answer × List Tree) : Prop :=
  ∃ answer after, outcome = some (answer, after) ∧ Kept (bound + steps) after ∧
    ∀ trees, Depicts arenas trees → answer = (plain trees).1 ∧ Depicts after (plain trees).2

theorem perform_steps {act : Act α} {on : Tree → Except DataError α × Tree}
    (hact : Performs steps act on) (h : Kept bound arenas) (position : Nat) (wrap : α → Answer) :
    Steps steps bound arenas (perform arenas position wrap act)
      fun trees => Session.on trees position wrap on := by
  unfold perform
  cases harena : arenas[position]? with
  | none =>
    refine ⟨_, _, rfl, h.mono (Nat.le_add_right bound steps), fun trees hdepicts => ?_⟩
    simp only [Session.on, hdepicts.lookup_none harena]
    exact ⟨trivial, hdepicts⟩
  | some arena =>
    obtain ⟨result, after, hrun, hleaves, hshown⟩ := hact (h arena (List.mem_of_getElem? harena)).1
    refine ⟨.ofResult wrap result, arenas.set position after, by simp [hrun], h.set harena hleaves,
      fun trees hdepicts => ?_⟩
    obtain ⟨tree, htree, hshows⟩ := hdepicts.lookup harena
    simp only [Session.on, htree]
    obtain ⟨hanswer, hafter⟩ := hshown hshows
    exact ⟨congrArg _ hanswer, hdepicts.set position hafter⟩

/-- Bytes that could not be had stop an operation before it touches its own arena. -/
theorem performs_liftExcept {act : Bytes → Act α} {on : Bytes → Tree → Except DataError α × Tree}
    (hact : ∀ data, Performs steps (act data) (on data)) (packed : Except DataError Bytes) :
    Performs steps (liftExcept packed >>= act) fun tree =>
      match packed with
      | .ok data => on data tree
      | .error e => (.error e, tree) := by
  intro arena h
  cases packed with
  | ok data =>
    rw [ends_bind, ends_liftExcept]
    exact hact data h
  | error e =>
    rw [ends_bind, ends_liftExcept]
    exact ⟨(Leaves.refl h).mono (Nat.zero_le steps), fun tree hshows => ⟨rfl, hshows⟩⟩

private theorem performWith_steps {act : Bytes → Act α}
    {on : Bytes → Tree → Except DataError α × Tree}
    (hact : ∀ data, Performs steps (act data) (on data)) (h : Kept bound arenas)
    (position other : Nat) (wrap : α → Answer) :
    Steps steps bound arenas (performWith arenas position other wrap act)
      fun trees => Session.onWith trees position other wrap fun tree source =>
        match source.bytes.1 with
        | .ok data => on data tree
        | .error e => (.error e, tree) := by
  unfold performWith
  cases hsource : arenas[other]? with
  | none =>
    refine ⟨_, _, rfl, h.mono (Nat.le_add_right bound steps), fun trees hdepicts => ?_⟩
    simp only [Session.onWith, hdepicts.lookup_none hsource]
    exact ⟨trivial, hdepicts⟩
  | some source =>
    obtain ⟨packed, written, hrun, hleaves, hshown⟩ :=
      performs_bytes (h source (List.mem_of_getElem? hsource)).1
    obtain ⟨answer, after, hstep, hkept, hsteps⟩ :=
      perform_steps (performs_liftExcept hact packed) (h.set hsource hleaves) position wrap
    refine ⟨answer, after, by simp only [hrun, Option.bind_some]; exact hstep, hkept,
      fun trees hdepicts => ?_⟩
    obtain ⟨tree, htree, hshows⟩ := hdepicts.lookup hsource
    simp only [Session.onWith, htree]
    obtain ⟨rfl, hwritten⟩ := hshown hshows
    exact hsteps _ (hdepicts.set other hwritten)

private theorem pushTreeAt_eq (path : Path) (tree source : Tree) :
    tree.pushTreeAt source path =
      match source.bytes.1 with
      | .ok data => tree.pushAt data path
      | .error e => (.error e, tree) := by
  rcases hbytes : source.bytes with ⟨_ | _, _⟩ <;> simp only [Tree.pushTreeAt, hbytes]

private theorem setTreeAt_eq (index : UInt8) (path : Path) (tree source : Tree) :
    tree.setTreeAt index source path =
      match source.bytes.1 with
      | .ok data => tree.setAt index data path
      | .error e => (.error e, tree) := by
  rcases hbytes : source.bytes with ⟨_ | _, _⟩ <;> simp only [Tree.setTreeAt, hbytes]

/-- The copy of a part of an arena shows the copy of that part of the tree. -/
theorem subtreeAt_shows {arena : Arena} (h : arena.Disciplined) (path : Path) :
    Ends (subtreeAt path) arena fun result after => ∀ tree, arena.Shows 0 tree →
      after.Shows 0 (tree.subtreeAt path).2 ∧
        match result with
        | .ok copy => ∃ sub, (tree.subtreeAt path).1 = .ok sub ∧ copy.Shows 0 sub
        | .error e => (tree.subtreeAt path).1 = .error e := by
  rw [subtreeAt, ends_bind]
  refine (performs_bytesAt path h).mono ?_
  rintro result after ⟨-, hbytes⟩
  have hread : ∀ tree, arena.Shows 0 tree →
      ∃ now, tree.bytesAt path = (result, now) ∧ after.Shows 0 now := by
    intro tree hshows
    obtain ⟨hanswer, hafter⟩ := hbytes hshows
    exact ⟨_, Prod.ext hanswer.symm rfl, hafter⟩
  cases result with
  | error e =>
    intro tree hshows
    obtain ⟨now, hfails, hafter⟩ := hread tree hshows
    simp only [Tree.subtreeAt, hfails]
    exact ⟨hafter, trivial⟩
  | ok packed =>
    rw [follows_ok]
    cases hopen : (LazyArray.ofBytes packed Tree.maxElements).materialize with
    | error e =>
      refine (ends_throw _).mpr fun tree hshows => ?_
      obtain ⟨now, hpacked, hafter⟩ := hread tree hshows
      simp only [Tree.subtreeAt, hpacked, hopen]
      exact ⟨hafter, trivial⟩
    | ok array =>
      refine (ends_pure _).mpr fun tree hshows => ?_
      obtain ⟨now, hpacked, hafter⟩ := hread tree hshows
      simp only [Tree.subtreeAt, hpacked, hopen]
      exact ⟨hafter, _, rfl, shows_ofArray array⟩

private theorem subtreeAt_steps (h : Kept bound arenas) (hbound : 0 < bound) (position : Nat)
    (path : Path) : Steps path.length bound arenas (step arenas (.subtreeAt position path))
      fun trees => Session.step trees (.subtreeAt position path) := by
  simp only [step]
  cases harena : arenas[position]? with
  | none =>
    refine ⟨_, _, rfl, h.mono (Nat.le_add_right _ _), fun trees hdepicts => ?_⟩
    simp only [Session.step, hdepicts.lookup_none harena]
    exact ⟨trivial, hdepicts⟩
  | some arena =>
    have hdisciplined := (h arena (List.mem_of_getElem? harena)).1
    obtain ⟨result, after, hrun, ⟨hleaves, hcopy⟩, hshown⟩ :=
      (subtreeAt_ends hdisciplined path).and (subtreeAt_shows hdisciplined path)
    have hset := h.set harena hleaves
    cases result with
    | error e =>
      refine ⟨.failed e, arenas.set position after, by simp [hrun], hset, fun trees hdepicts => ?_⟩
      obtain ⟨tree, htree, hshows⟩ := hdepicts.lookup harena
      obtain ⟨hafter, hfails⟩ := hshown tree hshows
      rcases hsub : tree.subtreeAt path with ⟨answer, now⟩
      rw [hsub] at hafter hfails
      cases hfails
      simp only [Session.step, htree, hsub]
      exact ⟨trivial, hdepicts.set position hafter⟩
    | ok copy =>
      obtain ⟨hnew, hslots⟩ := hcopy copy rfl
      refine ⟨.tree arenas.length, arenas.set position after ++ [copy], by simp [hrun],
        hset.append hnew (by omega), fun trees hdepicts => ?_⟩
      obtain ⟨tree, htree, hshows⟩ := hdepicts.lookup harena
      obtain ⟨hafter, sub, hanswer, hshowsSub⟩ := hshown tree hshows
      rcases hsub : tree.subtreeAt path with ⟨answer, now⟩
      rw [hsub] at hafter hanswer
      cases hanswer
      simp only [Session.step, htree, hsub]
      exact ⟨congrArg Answer.tree hdepicts.length, (hdepicts.set position hafter).append hshowsSub⟩

/-- One request, whether it succeeds or not. -/
theorem step_steps (h : Kept bound arenas) (hbound : 0 < bound) (request : Request) :
    Steps request.steps bound arenas (step arenas request)
      fun trees => Session.step trees request := by
  have hnew : ∀ array, Steps 0 bound arenas (some (.tree arenas.length, arenas ++ [ofArray array]))
      fun trees => (.tree trees.length, trees ++ [Tree.ofArray array]) := fun array =>
    ⟨_, _, rfl, h.append (disciplined_ofArray array) hbound, fun trees hdepicts =>
      ⟨congrArg Answer.tree hdepicts.length, hdepicts.append (shows_ofArray array)⟩⟩
  cases request with
  | empty => exact hnew _
  | ofBytes raw => exact hnew _
  | bytes tree => exact perform_steps performs_bytes h tree _
  | bytesAt tree path => exact perform_steps (performs_bytesAt path) h tree _
  | lengthAt tree path => exact perform_steps (performs_lengthAt path) h tree _
  | isFullAt tree path => exact perform_steps (performs_isFullAt path) h tree _
  | pushAt tree data path => exact perform_steps (performs_pushAt data path) h tree _
  | pushEmptyAt tree path => exact perform_steps (performs_pushAt Packing.empty path) h tree _
  | pushTreeAt tree other path =>
    simp only [step, Session.step, pushTreeAt_eq]
    exact performWith_steps (fun data => performs_pushAt data path) h tree other _
  | setAt tree index data path => exact perform_steps (performs_setAt index data path) h tree _
  | setTreeAt tree index other path =>
    simp only [step, Session.step, setTreeAt_eq]
    exact performWith_steps (fun data => performs_setAt index data path) h tree other _
  | subtreeAt position path => exact subtreeAt_steps h hbound position path

/-- A whole session comes to its end with disciplined arenas, and it is the session with trees. -/
theorem run_steps (h : Kept bound arenas) (hbound : 0 < bound) (requests : List Request) :
    ∃ answers after, run arenas requests = some (answers, after) ∧
      Kept (bound + Session.stepsOf requests) after ∧
      ∀ trees, Depicts arenas trees →
        answers = Session.run trees requests ∧ Depicts after (Session.after trees requests) := by
  induction requests generalizing bound arenas with
  | nil => exact ⟨[], arenas, rfl, h, fun trees hdepicts => ⟨rfl, hdepicts⟩⟩
  | cons request rest ih =>
    obtain ⟨answer, middle, hstep, hmiddle, hfirst⟩ := step_steps h hbound request
    obtain ⟨answers, after, hrun, hkept, hothers⟩ := ih hmiddle (Nat.lt_add_right _ hbound)
    refine ⟨answer :: answers, after, by simp [run, hstep, hrun], ?_, fun trees hdepicts => ?_⟩
    · rw [Session.stepsOf, ← Nat.add_assoc]
      exact hkept
    · simp only [Session.run, Session.after]
      obtain ⟨rfl, hnow⟩ := hfirst trees hdepicts
      obtain ⟨rfl, hlast⟩ := hothers _ hnow
      exact ⟨rfl, hlast⟩

private theorem kept_ofArray (arrays : List LazyArray) : Kept 1 (arrays.map ofArray) := by
  intro arena harena
  obtain ⟨array, -, rfl⟩ := List.mem_map.mp harena
  exact ⟨disciplined_ofArray array, Nat.le_refl 1⟩

private theorem depicts_ofArray (arrays : List LazyArray) :
    Depicts (arrays.map ofArray) (arrays.map Tree.ofArray) where
  length := by simp
  shows {i arena tree} harena htree := by
    rw [List.getElem?_map] at harena htree
    obtain ⟨array, harray, rfl⟩ := Option.map_eq_some_iff.mp harena
    rw [harray] at htree
    cases htree
    exact shows_ofArray array

end

/-- Every session with arenas comes to its end, whatever fails in it, and leaves them disciplined.
No arena has more slots than the walks had steps, and one for the top. From each slot, marking
upwards ends and leaves a disciplined arena, and so does writing back: it fails only for something
too long to be an element, it changes nothing that cannot be reached from the slot, and if it
succeeds, then everything that can be reached is clean, and written if it is below the slot. The
session with trees gives the same answers, and its trees are those of the arenas. -/
theorem disciplined_in_every_session (arrays : List LazyArray) (requests : List Request) :
    ∃ answers arenas, run (arrays.map ofArray) requests = some (answers, arenas) ∧
      (∀ arena ∈ arenas, arena.Disciplined ∧ arena.slots ≤ 1 + Session.stepsOf requests ∧
        ∀ id, id < arena.slots →
          Ends (invalidate id) arena (fun result after => result = .ok () ∧ after.Disciplined) ∧
          Ends (sync id) arena fun result after => after.Disciplined ∧
            (∀ other, after.Leads id other ↔ arena.Leads id other) ∧
            (∀ other, ¬ arena.Leads id other → after.node? other = arena.node? other) ∧
            (result = .ok () → after.Settled id) ∧
            ∀ e, result = .error e → e.isOverlong = true) ∧
      answers = Session.run (arrays.map Tree.ofArray) requests ∧
      Depicts arenas (Session.after (arrays.map Tree.ofArray) requests) := by
  obtain ⟨answers, arenas, hrun, hkept, hshows⟩ :=
    run_steps (kept_ofArray arrays) Nat.zero_lt_one requests
  refine ⟨answers, arenas, hrun, fun arena harena => ?_, hshows _ (depicts_ofArray arrays)⟩
  obtain ⟨h, hslots⟩ := hkept arena harena
  refine ⟨h, hslots, fun id hid => ⟨?_, ?_⟩⟩
  · refine ((invalidate_marks h.ordered hid).and (invalidate_ends h hid)).mono ?_
    exact fun result after ⟨⟨hok, _⟩, hleaves⟩ => ⟨hok, hleaves.disciplined⟩
  · refine (sync_ends h hid).mono fun result after hsynced => ?_
    exact ⟨hsynced.disciplined, fun other => hsynced.settles.leads_iff, fun other hfar =>
      hsynced.settles.kept hfar, hsynced.settled, fun e hfail => hsynced.failed hfail⟩

theorem disciplined_in_every_session_interleaved :
    ∃ arenas, run [] Session.interleaved = some (Session.run [] Session.interleaved, arenas) ∧
      arenas.length = 2 ∧ ∀ arena ∈ arenas, arena.Disciplined ∧ arena.slots ≤ 12 := by
  have hcount : (Session.after [] Session.interleaved).length = 2 := by decide +kernel
  obtain ⟨answers, arenas, hrun, hall, rfl, hdepicts⟩ :=
    disciplined_in_every_session [] Session.interleaved
  exact ⟨arenas, hrun, hdepicts.length.trans hcount, fun arena harena =>
    ⟨(hall arena harena).1, (hall arena harena).2.1⟩⟩

end Arena
end ByteFormula
