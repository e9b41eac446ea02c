import ByteFormula.Proofs.ArenaTrees
import ByteFormula.Proofs.TreePushes

/-! Visits in an arena. A walk down the links, an action where it ends and the marks on the way up
are together what a visit does to a tree. -/
namespace ByteFormula

private theorem Branches.put_put (index : UInt8) (tree other : Tree) (branches : Branches) :
    (branches.put index tree).put index other = branches.put index other := by
  fun_induction Branches.put index tree branches with
  | case1 => simp [Branches.put]
  | case2 rest old => simp [Branches.put]
  | case3 i old rest hne hlt => simp [Branches.put, hne, hlt]
  | case4 i old rest hne hlt ih => simp [Branches.put, hne, hlt, ih]

theorem LazyArray.Inner.materialize {array : LazyArray} (h : array.Inner) :
    array.materialize = .ok array := by
  obtain ⟨elements, cached, rfl, -⟩ := h
  rfl

namespace Arena

/-- Acts on a slot, and marks it and all above it if that was a write that succeeded. -/
def finish {α : Type} (writes : Bool) (act : Nat → Act α) (id : Nat) : Act α := do
  let value ← act id
  if writes then invalidate id else pure ()
  pure value

def markAbove (id : Nat) : Act Unit := do
  let node ← look id
  match node.parent with
  | none => pure ()
  | some (parent, _) => invalidate parent

/-- An action on slots does to the tree of a slot what another one does to trees. -/
def Reflects {α : Type} (act : Nat → Act α) (on : Tree.Action α) : Prop :=
  ∀ ⦃arena : Arena⦄ ⦃id : Nat⦄ ⦃tree : Tree⦄, arena.Disciplined → arena.Shows id tree →
    Ends (act id) arena fun result after => after.Disciplined ∧
      Spares (arena.Leads id) arena after ∧ result = (on tree).1 ∧ after.Shows id (on tree).2

/-- How a visit goes on above a slot: a write that succeeded still has to mark what is there. -/
def Rises {α : Type} (writes : Bool) (id : Nat) (middle : Arena) (result : Except DataError α)
    (after : Arena) : Prop :=
  match writes, result with
  | true, .ok _ => Ends (markAbove id) middle fun _ last => last = after
  | _, _ => middle = after

section

variable {α : Type} {arena : Arena} {id : Nat} {node : Node} {tree : Tree} {index : UInt8}

/-- More room makes no difference to the marks, since the way up is shorter than that. -/
theorem ends_invalidateWithin {post : Except DataError Unit → Arena → Prop} (h : arena.Ordered)
    (hid : id < arena.slots) {room more : Nat} (hroom : id < room) (hmore : id < more) :
    Ends (invalidateWithin room id) arena post ↔ Ends (invalidateWithin more id) arena post := by
  induction room generalizing arena id more with
  | zero => cases hroom
  | succ room ih =>
    obtain ⟨more, rfl⟩ := Nat.exists_eq_succ_of_ne_zero (Nat.ne_zero_of_lt hmore)
    obtain ⟨node, hnode⟩ := node?_eq_some_of_lt hid
    simp only [invalidateWithin, ends_bind, ends_look hnode, follows_ok, ends_change]
    cases hparent : node.parent with
    | none => exact .rfl
    | some up =>
      obtain ⟨above, index⟩ := up
      have habove := h.parent hnode hparent
      exact ih (h.mark id) (by rw [slots_update]; omega) (by omega) (by omega)

private theorem ends_invalidate {post : Except DataError Unit → Arena → Prop} (h : arena.Ordered)
    (hnode : arena.node? id = some node) :
    Ends (invalidate id) arena post ↔ Ends (markAbove id) (arena.update id Node.mark) post := by
  have hid := lt_slots hnode
  rw [ends_invalidate_iff, ends_invalidateWithin h hid hid (Nat.lt_succ_of_lt hid)]
  simp only [invalidateWithin, markAbove, ends_bind, ends_look hnode, follows_ok, ends_change,
    ends_look (node?_update_self Node.mark hnode), Node.mark]
  cases hparent : node.parent with
  | none => exact .rfl
  | some up =>
    simp only [ends_invalidate_iff, slots_update]

/-- A step of a walk that led somewhere: the tree has a branch there, and is visited as before. -/
structure Entered (trail : Path) (index : UInt8) (tree now below : Tree) (arena middle : Arena)
    (id child : Nat) : Prop where
  linked : ∃ node, middle.node? id = some node ∧ node.children index = some child
  shows : middle.Shows id now
  branch : now.branches.get? index = some below
  shown : middle.Shows child below
  leads : ∀ {other : Nat} {seen : Node}, arena.node? other = some seen →
    middle.Leads child other → arena.Leads id other
  visit : ∀ {α : Type} (writes : Bool) (on : Tree.Action α) (rest : Path),
    Tree.visit writes on trail (index :: rest) tree = Tree.visit writes on trail (index :: rest) now

section

variable {branches : Branches} {dirty unwritten : Bool} {array after : LazyArray} {trail : Path}
  (writes : Bool) (on : Tree.Action α) (rest : Path)

/-- A visit that finds no element. -/
theorem visit_no_element {e : DataError} (hlacks : branches.get? index = none)
    (hget : array.get index.toNat = (.error e, after)) :
    Tree.visit writes on trail (index :: rest) (.node array branches dirty unwritten) =
      (.error (blame trail index e), .node after branches dirty unwritten) := by
  simp only [Tree.visit, Tree.branches, Tree.array, hlacks, hget]
  cases e <;> rfl

/-- A visit that finds an element which is not an array. -/
theorem visit_no_array {element : Bytes} {e : DataError} (hlacks : branches.get? index = none)
    (hget : array.get index.toNat = (.ok element, after))
    (hopen : (LazyArray.ofBytes element Tree.maxElements).materialize = .error e) :
    Tree.visit writes on trail (index :: rest) (.node array branches dirty unwritten) =
      (.error (.notAnArray (trail.child index)), .node after branches dirty unwritten) := by
  simp only [Tree.visit, Tree.branches, Tree.array, hlacks, hget, hopen]
  rfl

/-- A visit that reads an element as an array first puts a branch there. -/
theorem visit_new_branch {element : Bytes} {own : LazyArray} (hlacks : branches.get? index = none)
    (hget : array.get index.toNat = (.ok element, after))
    (hopen : (LazyArray.ofBytes element Tree.maxElements).materialize = .ok own) :
    Tree.visit writes on trail (index :: rest) (.node array branches dirty unwritten) =
      Tree.visit writes on trail (index :: rest)
        (.node after (branches.put index (.ofArray own)) dirty unwritten) := by
  simp only [Tree.visit, Tree.branches, Tree.array, hlacks, hget, hopen, Branches.get?_put, if_true,
    Tree.withBranches, Tree.withArray, Branches.put_put]
  rfl

end

/-- One step of a walk, if it takes the next slot. -/
theorem entered_attach (h : arena.Disciplined) {branches : Branches} {array own : LazyArray}
    {element : Bytes} (hnode : arena.node? id = some node) (hsorted : branches.Sorted)
    (hbears : arena.Bears node.children fun index => branches.get? index)
    (hlacks : branches.get? index = none) (trail : Path)
    (hget : node.array.get index.toNat = (.ok element, array))
    (hopen : (LazyArray.ofBytes element Tree.maxElements).materialize = .ok own) :
    Spares (· = id) arena ((arena.update id fun old => old.withArray array).attach id index own) ∧
      Entered trail index (.node node.array branches node.dirty node.unwritten)
        (.node array (branches.put index (.ofArray own)) node.dirty node.unwritten) (.ofArray own)
        arena ((arena.update id fun old => old.withArray array).attach id index own) id
        arena.slots := by
  have hid : id < (arena.update id fun old => old.withArray array).slots := by
    rw [slots_update]
    exact lt_slots hnode
  have hspares : Spares (· = id) arena
      ((arena.update id fun old => old.withArray array).attach id index own) := by
    intro other seen hseen hother
    rw [node?_attach_old hid (by rw [slots_update]; exact lt_slots hseen),
      node?_update_other _ hother, node?_update_other _ hother, hseen]
  have hnew := node?_attach_new hid index own
  rw [slots_update] at hnew
  have hself := node?_attach_old hid hid index own
  rw [node?_update_self _ (node?_update_self _ hnode), slots_update] at hself
  have hleaf : ((arena.update id fun old => old.withArray array).attach id index own).Shows
      arena.slots (.ofArray own) := .intro hnew .nil fun _ => .inl ⟨rfl, rfl⟩
  refine ⟨hspares, ⟨_, hself, if_pos rfl⟩, .intro hself (hsorted.put index _) fun i => ?_, ?_, hleaf,
    fun {other seen} hseen hleads => ?_, fun writes on rest => ?_⟩
  · by_cases hsame : i = index
    · subst hsame
      exact .inr ⟨arena.slots, .ofArray own, if_pos rfl, by simp [Branches.get?_put], hleaf⟩
    · have hchildren : ((node.withArray array).link index (some arena.slots)).children i =
          node.children i := if_neg hsame
      simp only [hchildren, Branches.get?_put, if_neg (Ne.symm hsame)]
      obtain hnone | ⟨child, below, hchild, hbelow, hshown⟩ := hbears i
      · exact .inl hnone
      · exact .inr ⟨child, below, hchild, hbelow, hshown.spared hspares fun hleads hself =>
          h.ordered.not_leads hnode hchild (hself ▸ hleads)⟩
  · simp [Tree.branches, Branches.get?_put]
  · -- The new slot has no links, and it was not there before.
    cases hleads with
    | refl => exact absurd (lt_slots hseen) (Nat.lt_irrefl _)
    | step hstart hchild _ =>
      cases hnew.symm.trans hstart
      cases hchild
  · exact visit_new_branch writes on rest hlacks hget hopen

/-- One step of a walk: the tree has a branch at the index afterwards, or the visit fails. -/
theorem enter_shows (h : arena.Disciplined) (hshows : arena.Shows id tree) (trail : Path)
    (index : UInt8) :
    Ends (enter trail id index) arena fun result middle => Spares (· = id) arena middle ∧
      (∀ e, result = .error e → ∃ now, middle.Shows id now ∧
        ∀ {α : Type} (writes : Bool) (on : Tree.Action α) (rest : Path),
          Tree.visit writes on trail (index :: rest) tree = (.error e, now)) ∧
      ∀ child, result = .ok child →
        ∃ now below, Entered trail index tree now below arena middle id child := by
  obtain ⟨node, branches, hnode, rfl, hsorted, hbears⟩ := hshows.elim
  simp only [enter, ends_bind, ends_look hnode, follows_ok]
  obtain ⟨hnone, hlacks⟩ | ⟨child, below, hchild, hbelow, hshown⟩ := hbears index
  · simp only [hnone, ends_bind, ends_onArray hnode]
    cases hget : node.array.get index.toNat with
    | mk result array =>
      have hread : (arena.update id fun old => old.withArray array).Shows id
          (.node array branches node.dirty node.unwritten) :=
        Shows.update h.ordered hnode hsorted hbears rfl rfl
      cases result with
      | error e =>
        refine ⟨spares_update id _, fun same hfail => ?_, fun _ hok => by cases hok⟩
        cases hfail
        exact ⟨_, hread, fun writes on rest => visit_no_element writes on rest hlacks hget⟩
      | ok element =>
        simp only [blamed, follows_ok]
        cases hopen : (LazyArray.ofBytes element Tree.maxElements).materialize with
        | error e =>
          refine (ends_throw _).mpr ⟨spares_update id _, fun same hfail => ?_,
            fun _ hok => by cases hok⟩
          cases hfail
          exact ⟨_, hread, fun writes on rest => visit_no_array writes on rest hlacks hget hopen⟩
        | ok own =>
          simp only [ends_modifyGet]
          obtain ⟨hspares, hentered⟩ :=
            entered_attach h hnode hsorted hbears hlacks trail hget hopen
          refine ⟨hspares, (fun _ hfail => by cases hfail), fun child hok => ?_⟩
          cases hok
          rw [slots_update]
          exact ⟨_, _, hentered⟩
  · simp only [hchild, ends_pure]
    refine ⟨fun other seen hseen _ => hseen, (fun e hfail => by cases hfail), fun same hok => ?_⟩
    cases hok
    exact ⟨_, below, ⟨node, hnode, hchild⟩, hshows, hbelow, hshown,
      fun _ hleads => .step hnode hchild hleads, fun _ _ _ => rfl⟩

/-- What a visit leaves, from the slot where it starts downwards. -/
structure Visited (writes : Bool) (arena : Arena) (id : Nat) (outcome : Except DataError α × Tree)
    (result : Except DataError α) (after : Arena) : Prop where
  answer : result = outcome.1
  middle : ∃ middle : Arena, middle.Ordered ∧ middle.Shows id outcome.2 ∧
    Spares (arena.Leads id) arena middle ∧ Rises writes id middle result after

/-- The marks end, and after the first one those above are left. -/
theorem invalidate_rises {post : Except DataError Unit → Arena → Prop} (h : arena.Ordered)
    (hnode : arena.node? id = some node)
    (hpost : ∀ after, Ends (markAbove id) (arena.update id Node.mark) (fun _ last => last = after) →
      post (.ok ()) after) : Ends (invalidate id) arena post := by
  obtain ⟨result, after, hrun, rfl, -⟩ := invalidate_marks h (lt_slots hnode)
  exact ⟨_, after, hrun, hpost after ((ends_invalidate h hnode).mp ⟨_, _, hrun, rfl⟩)⟩

/-- An action where a walk ends, and the marks from there on. -/
theorem finish_visits {act : Nat → Act α} {on : Tree.Action α} (hact : Reflects act on)
    (writes : Bool) (h : arena.Disciplined) (hshows : arena.Shows id tree) :
    Ends (finish writes act id) arena
      (Visited writes arena id (Tree.settle writes (on tree).1 (on tree).2)) := by
  simp only [finish, ends_bind]
  refine (hact h hshows).mono ?_
  rintro result middle ⟨hmiddle, hspares, hsame, hshown⟩
  rw [← hsame]
  cases result with
  | error e =>
    refine ⟨rfl, middle, hmiddle.ordered, hshown, hspares, ?_⟩
    cases writes <;> rfl
  | ok value =>
    cases writes with
    | false =>
      simp only [follows_ok, Bool.false_eq_true, if_false, ends_pure]
      exact ⟨rfl, middle, hmiddle.ordered, hshown, hspares, rfl⟩
    | true =>
      obtain ⟨node, branches, hnode, htree, hsorted, hbears⟩ := hshown.elim
      simp only [follows_ok, ends_bind, if_true]
      refine invalidate_rises hmiddle.ordered hnode fun after hrises => (ends_pure value).mpr ?_
      refine ⟨rfl, _, hmiddle.ordered.mark id, ?_, ?_, hrises⟩
      · rw [htree]
        exact Shows.update hmiddle.ordered hnode hsorted hbears rfl rfl
      · intro other seen hseen hfar
        exact spares_update id _ (hspares hseen hfar) fun hsame => hfar (hsame ▸ .refl other)

/-- A visit below a link, once it is done, is a visit of the slot with the link. -/
theorem Visited.above {writes : Bool} {result : Except DataError α} {middle after : Arena}
    {child : Nat} {branches : Branches} (h : middle.Ordered) (hnode : middle.node? id = some node)
    (hchild : node.children index = some child) (hsorted : branches.Sorted)
    (hbears : middle.Bears node.children fun i => branches.get? i)
    (hspares : Spares (arena.Leads id) arena middle) (hrises : Rises writes child middle result after) :
    Visited writes arena id (Tree.settle writes result
      (.node node.array branches node.dirty node.unwritten)) result after := by
  have hshows := Shows.intro hnode hsorted hbears
  cases result with
  | error e =>
    refine ⟨rfl, middle, h, hshows, hspares, ?_⟩
    cases writes <;> exact hrises
  | ok value =>
    cases writes with
    | false => exact ⟨rfl, middle, h, hshows, hspares, hrises⟩
    | true =>
      obtain ⟨-, below, hbelow, hparent⟩ := h.linked hnode hchild
      simp only [Rises, markAbove, ends_bind, ends_look hbelow, follows_ok, hparent] at hrises
      refine ⟨rfl, _, h.mark id, Shows.update h hnode hsorted hbears rfl rfl, ?_,
        (ends_invalidate h hnode).mp hrises⟩
      intro other seen hseen hfar
      exact spares_update id _ (hspares hseen hfar) fun hsame => hfar (hsame ▸ .refl other)

/-- A walk and what follows it at its end is a visit. The induction is on the path; on the way back
the slot of each step is marked after all that is below it. -/
theorem descend_visits {act : Nat → Act α} {on : Tree.Action α} (hact : Reflects act on)
    (writes : Bool) (trail path : Path) (h : arena.Disciplined) (hshows : arena.Shows id tree)
    (hopen : path = [] → tree.array.materialize = .ok tree.array) :
    Ends (descend trail id path >>= finish writes act) arena
      (Visited writes arena id (Tree.visit writes on trail path tree)) := by
  induction path generalizing arena id tree trail with
  | nil =>
    obtain ⟨node, branches, -, rfl, -⟩ := hshows.elim
    simp only [descend, ends_bind, ends_pure, follows_ok]
    rw [Tree.visit, hopen rfl]
    exact finish_visits hact writes h hshows
  | cons index rest ih =>
    simp only [descend, ends_bind]
    obtain ⟨top, -, hnode, -⟩ := hshows.elim
    refine ((enter_ends h (lt_slots hnode) trail index).and
      (enter_shows h hshows trail index)).mono ?_
    rintro result first ⟨⟨hleaves, -⟩, hspares, hfails, henters⟩
    have hordered := hleaves.disciplined.ordered
    cases result with
    | error e =>
      obtain ⟨now, hnow, hvisit⟩ := hfails e rfl
      refine ⟨by rw [hvisit], first, hordered, by rw [hvisit]; exact hnow, ?_, ?_⟩
      · exact fun other seen hseen hfar => hspares hseen fun hsame => hfar (hsame ▸ .refl other)
      · cases writes <;> rfl
    | ok child =>
      obtain ⟨now, below, hentered⟩ := henters child rfl
      obtain ⟨node, hself, hchild⟩ := hentered.linked
      obtain ⟨same, branches, hsame, htop, hsorted, hbears⟩ := hentered.shows.elim
      cases hself.symm.trans hsame
      have hvisit : Tree.visit writes on trail (index :: rest) tree =
          Tree.settle writes (Tree.visit writes on (trail.child index) rest below).1 (.node node.array
            (branches.put index (Tree.visit writes on (trail.child index) rest below).2) node.dirty
            node.unwritten) := by
        rw [hentered.visit, Tree.visit, hentered.branch, htop]
        rfl
      rw [follows_ok, ← ends_bind]
      refine (ih (trail.child index) hleaves.disciplined hentered.shown fun _ => ?_).mono ?_
      · obtain ⟨-, -, own, hown, hparent, -⟩ := hleaves.disciplined.linked hself hchild
        obtain ⟨same, branches, hsame, rfl, -⟩ := hentered.shown.elim
        cases hown.symm.trans hsame
        exact (hleaves.disciplined.parent hown hparent).2.materialize
      rintro result after ⟨hanswer, middle, hmiddle, hshown, hfar, hrises⟩
      have hnode : middle.node? id = some node := hfar hself (hordered.not_leads hself hchild)
      have hplaced : middle.Bears node.children fun i =>
          (branches.put index (Tree.visit writes on (trail.child index) rest below).2).get? i := by
        have hplace := Bears.place hordered hself hbears hchild
          (fun other seen hseen hno => hfar hseen fun hleads => hno (.inr hleads)) hshown
        simpa only [Branches.get?_put, eq_comm] using hplace
      have hspared : Spares (arena.Leads id) arena middle := fun other seen hseen hno =>
        hfar (hspares hseen fun hsame => hno (hsame ▸ .refl other))
          fun hleads => hno (hentered.leads hseen hleads)
      rw [hvisit, ← hanswer]
      exact Visited.above hmiddle hnode hchild (hsorted.put index _) hplaced hspared hrises

/-- A visit that starts at the top. -/
theorem locate_visits {act : Nat → Act α} {on : Tree.Action α} (hact : Reflects act on)
    (writes : Bool) (path : Path) (h : arena.Disciplined) (hshows : arena.Shows 0 tree) :
    Ends (locate path >>= finish writes act) arena fun result after =>
      result = (Tree.visit writes on [] path tree).1 ∧
        after.Shows 0 (Tree.visit writes on [] path tree).2 := by
  -- There is nothing above the top that would have to be marked.
  have htop : ∀ {start after : Arena} {result : Except DataError α}
      {outcome : Except DataError α × Tree}, Visited writes start 0 outcome result after →
      result = outcome.1 ∧ after.Shows 0 outcome.2 := by
    rintro start after result outcome ⟨hanswer, middle, hordered, hshown, -, hrises⟩
    refine ⟨hanswer, ?_⟩
    suffices hsame : middle = after from hsame ▸ hshown
    cases writes with
    | false => exact hrises
    | true =>
      cases result with
      | error e => exact hrises
      | ok value =>
        obtain ⟨node, -, hnode, -⟩ := hshown.elim
        simp only [Rises, markAbove, ends_bind, ends_look hnode, follows_ok] at hrises
        cases hparent : node.parent with
        | none =>
          rw [hparent] at hrises
          exact (ends_pure ()).mp hrises
        | some above => exact absurd (hordered.parent hnode hparent) (Nat.not_lt_zero _)
  cases path with
  | cons index rest =>
    exact (descend_visits hact writes [] (index :: rest) h hshows fun hnil => by cases hnil).mono
      fun result after hvisited => htop hvisited
  | nil =>
    obtain ⟨node, branches, hnode, rfl, hsorted, hbears⟩ := hshows.elim
    have hread : ∀ array, (arena.update 0 fun old => old.withArray array).Shows 0
        (.node array branches node.dirty node.unwritten) := fun array =>
      Shows.update h.ordered hnode hsorted hbears rfl rfl
    simp only [locate, ends_bind, ends_onArray hnode, Tree.visit, Tree.array]
    cases hopen : node.array.materialize with
    | error e => exact ⟨rfl, hread node.array⟩
    | ok opened =>
      have hopened := h.withArray hnode (LazyArray.evolves_materialize hopen)
      exact (finish_visits hact writes hopened (hread opened)).mono fun result after hvisited =>
        htop hvisited

/-- Only the slot itself is touched. -/
theorem spares_self (id : Nat) (change : Node → Node) :
    Spares (arena.Leads id) arena (arena.update id change) :=
  fun other _ hseen hfar => spares_update id change hseen fun hsame => hfar (hsame ▸ .refl other)

theorem reflects_onArray {ask : LazyArray → Except DataError α × LazyArray}
    (hask : ∀ array : LazyArray, array.Evolves (ask array).2) :
    Reflects (fun id => onArray id ask) (Tree.onArray ask) := by
  intro arena id tree h hshows
  obtain ⟨node, branches, hnode, rfl, hsorted, hbears⟩ := hshows.elim
  rw [ends_onArray hnode]
  exact ⟨h.withArray hnode (hask node.array), spares_self id _, rfl,
    Shows.update h.ordered hnode hsorted hbears rfl rfl⟩

theorem reflects_bytesOf : Reflects bytesOf Tree.bytes := by
  intro arena id tree h hshows
  obtain ⟨node, -, hnode, -⟩ := hshows.elim
  rw [bytesOf, ends_bind]
  refine ((sync_ends h (lt_slots hnode)).and (sync_shows h hshows)).mono ?_
  rintro result middle ⟨hsynced, rfl, hmiddle⟩
  have hspares : Spares (arena.Leads id) arena middle := fun other seen hseen hfar =>
    (hsynced.settles.kept hfar).trans hseen
  rcases hsync : tree.sync with ⟨e | done, synced⟩
  all_goals
    rw [hsync] at hsynced hmiddle
    simp only [Tree.bytes, hsync]
  · exact ⟨hsynced.disciplined, hspares, rfl, hmiddle⟩
  · obtain ⟨now, branches, hnow, rfl, hsorted, hbears⟩ := hmiddle.elim
    rw [follows_ok, ends_onArray hnow]
    refine ⟨hsynced.disciplined.withArray hnow now.array.evolves_bytes, ?_, rfl,
      Shows.update hsynced.disciplined.ordered hnow hsorted hbears rfl rfl⟩
    intro other seen hseen hfar
    exact spares_update id _ (hspares hseen hfar) fun hsame => hfar (hsame ▸ .refl other)

theorem reflects_elementBytes (path : Path) (index : UInt8) :
    Reflects (elementBytes path index) (Tree.elementBytes path index) := by
  intro arena id tree h hshows
  obtain ⟨node, branches, hnode, rfl, hsorted, hbears⟩ := hshows.elim
  simp only [elementBytes, ends_bind, ends_look hnode, follows_ok, Tree.elementBytes, Tree.branches]
  obtain ⟨hnone, hlacks⟩ | ⟨child, below, hchild, hbelow, hshown⟩ := hbears index
  · simp only [hnone, hlacks, ends_onArray hnode, Tree.array]
    have hread := node.array.evolves_get index.toNat
    have hshown : ∀ array, (arena.update id fun old => old.withArray array).Shows id
        (.node array branches node.dirty node.unwritten) := fun array =>
      Shows.update h.ordered hnode hsorted hbears rfl rfl
    rcases hget : node.array.get index.toNat with ⟨e | element, array⟩
    · rw [hget] at hread
      cases e <;> exact ⟨h.withArray hnode hread, spares_self id _, rfl, hshown array⟩
    · rw [hget] at hread
      exact ⟨h.withArray hnode hread, spares_self id _, rfl, hshown array⟩
  · simp only [hchild, hbelow]
    refine (reflects_bytesOf h hshown).mono ?_
    rintro result after ⟨hafter, hspares, hanswer, hnow⟩
    have hplaced := Bears.place h.ordered hnode hbears hchild
      (fun other seen hseen hno => hspares hseen fun hleads => hno (.inr hleads)) hnow
    refine ⟨hafter, fun other seen hseen hfar => hspares hseen fun hleads =>
      hfar (.step hnode hchild hleads), hanswer,
      .intro (hspares hnode (h.ordered.not_leads hnode hchild)) (hsorted.put index _) ?_⟩
    simpa only [Branches.get?_put, eq_comm] using hplaced

def pushElement (data : Bytes) (id : Nat) : Act UInt8 := do
  let index ← onArray id fun array => array.push data
  pure (.ofNat index)

/-- Overwrites an element of the array of a slot, and unlinks what was read from it. -/
def setElement (index : UInt8) (data : Bytes) (id : Nat) : Act Unit := do
  onArray id fun array => array.set index.toNat data
  change id fun node => node.link index none

theorem reflects_pushElement (data : Bytes) :
    Reflects (pushElement data) (Tree.pushElement data) := by
  intro arena id tree h hshows
  obtain ⟨node, branches, hnode, rfl, hsorted, hbears⟩ := hshows.elim
  have hpush := node.array.evolves_push data
  simp only [pushElement, ends_bind, ends_onArray hnode, Tree.pushElement, Tree.array]
  rcases hpushed : node.array.push data with ⟨e | index, array⟩
  · rw [hpushed] at hpush
    exact ⟨h.withArray hnode hpush, spares_self id _, rfl,
      Shows.update h.ordered hnode hsorted hbears rfl rfl⟩
  · rw [hpushed] at hpush
    simp only [follows_ok, ends_pure]
    exact ⟨h.withArray hnode hpush, spares_self id _, trivial,
      Shows.update h.ordered hnode hsorted hbears rfl rfl⟩

theorem reflects_setElement (index : UInt8) (data : Bytes) :
    Reflects (setElement index data) (Tree.setElement index data) := by
  intro arena id tree h hshows
  obtain ⟨node, branches, hnode, rfl, hsorted, hbears⟩ := hshows.elim
  have hset := node.array.evolves_set index.toNat data
  simp only [setElement, ends_bind, ends_onArray hnode, Tree.setElement, Tree.array]
  rcases hstored : node.array.set index.toNat data with ⟨e | done, array⟩
  · rw [hstored] at hset
    exact ⟨h.withArray hnode hset, spares_self id _, rfl,
      Shows.update h.ordered hnode hsorted hbears rfl rfl⟩
  · rw [hstored] at hset
    have hstill := h.withArray hnode hset
    have hnode' := node?_update_self (fun old => old.withArray array) hnode
    simp only [follows_ok, ends_change]
    have hspares : Spares (· = id) arena ((arena.update id fun old => old.withArray array).update id
        fun old => old.link index none) := by
      intro other seen hseen hne
      rw [node?_update_other _ hne, node?_update_other _ hne, hseen]
    refine ⟨hstill.unlink hnode' index, fun other seen hseen hfar => hspares hseen fun hsame =>
      hfar (hsame ▸ .refl other), trivial, ?_⟩
    refine Shows.intro (node?_update_self (fun old => old.link index none) hnode')
      (hsorted.erase index) fun i => ?_
    simp only [Node.link, Node.withArray, Branches.get?_erase]
    by_cases hsame : i = index
    · simp [hsame]
    · simp only [hsame, Ne.symm hsame, if_false]
      exact hbears.spared hspares (fun hchild hleads hself =>
        h.ordered.not_leads hnode hchild (hself ▸ hleads)) i

theorem pushAt_eq (data : Bytes) (path : Path) :
    pushAt data path = locate path >>= finish true (pushElement data) := by
  refine congrArg (locate path >>= ·) (funext fun id => ?_)
  simp [finish, pushElement]

theorem setAt_eq (index : UInt8) (data : Bytes) (path : Path) :
    setAt index data path = locate path >>= finish true (setElement index data) := by
  refine congrArg (locate path >>= ·) (funext fun id => ?_)
  simp [finish, setElement]

theorem read_eq (act : Nat → Act α) (path : Path) :
    (locate path >>= fun id => act id) = locate path >>= finish false act := by
  refine congrArg (locate path >>= ·) (funext fun id => ?_)
  simp [finish]

end
end Arena
end ByteFormula
