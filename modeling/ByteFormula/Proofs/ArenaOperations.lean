import ByteFormula.Proofs.ArenaWriteBack

/-! Every operation on a disciplined arena ends and leaves a disciplined one, also when it fails. -/
namespace ByteFormula.Arena

section

variable {arena : Arena} {id : Nat}

/-- Some slots are marked, with each of them the one above. -/
structure Marked (chain : List Nat) (arena after : Arena) : Prop where
  slots : after.slots = arena.slots
  node : ∀ other, after.node? other =
    (arena.node? other).map fun node => if other ∈ chain then node.mark else node
  rises : ∀ {other above : Nat} {node : Node} {index : UInt8}, other ∈ chain →
    arena.node? other = some node → node.parent = some (above, index) → above ∈ chain

/-- Marking goes up to the top, since parents come before their children. -/
theorem invalidateWithin_marks (h : arena.Ordered) (hid : id < arena.slots) {room : Nat}
    (hroom : id < room) : Ends (invalidateWithin room id) arena fun result after =>
      result = .ok () ∧ ∃ chain, id ∈ chain ∧ Marked chain arena after := by
  induction room generalizing arena id with
  | zero => cases hroom
  | succ room ih =>
    obtain ⟨node, hnode⟩ := node?_eq_some_of_lt hid
    rw [invalidateWithin]
    simp only [ends_bind, ends_look hnode, follows_ok, ends_change]
    have hmarked : ∀ other, (arena.update id Node.mark).node? other =
        (arena.node? other).map fun node => if other = id then node.mark else node := by
      intro other
      rw [node?_update]
      by_cases hsame : other = id <;> simp [hsame]
    cases hparent : node.parent with
    | none =>
      refine (ends_pure ()).mpr ⟨rfl, [id], List.mem_singleton_self id, slots_update _ _, ?_, ?_⟩
      · simpa using hmarked
      · intro other above now index hother hnow hup
        cases List.mem_singleton.mp hother
        cases hnode.symm.trans hnow
        cases hparent.symm.trans hup
    | some up =>
      obtain ⟨above, index⟩ := up
      have habove := h.parent hnode hparent
      refine (ih (h.mark id) ?_ (by omega)).mono fun result after hrest => ?_
      · rw [slots_update]
        exact Nat.lt_trans habove hid
      · obtain ⟨hok, chain, hstart, hchain⟩ := hrest
        refine ⟨hok, id :: chain, List.mem_cons_self, hchain.slots.trans (slots_update _ _), ?_, ?_⟩
        · intro other
          rw [hchain.node, hmarked, Option.map_map]
          refine congrArg (fun f => Option.map f (arena.node? other)) (funext fun node => ?_)
          by_cases hsame : other = id <;> by_cases hmem : other ∈ chain <;>
            simp [hsame, hmem, Node.mark]
        · intro other up now i hother hnow hup
          rcases List.mem_cons.mp hother with rfl | hother
          · cases hnode.symm.trans hnow
            cases hparent.symm.trans hup
            exact List.mem_cons_of_mem _ hstart
          · have hafter := hmarked other
            rw [hnow] at hafter
            have hsame : (if other = id then now.mark else now).parent = some (up, i) := by
              split <;> exact hup
            exact List.mem_cons_of_mem _ (hchain.rises hother hafter hsame)

theorem invalidate_marks (h : arena.Ordered) (hid : id < arena.slots) :
    Ends (invalidate id) arena fun result after =>
      result = .ok () ∧ ∃ chain, id ∈ chain ∧ Marked chain arena after :=
  (ends_invalidate_iff id).mpr (invalidateWithin_marks h hid hid)

/-- Marks upwards keep the discipline: what they make unwritten stands below what they make dirty. -/
theorem Marked.disciplined {chain : List Nat} {after : Arena} (hmarked : Marked chain arena after)
    (h : arena.Disciplined) : after.Disciplined := by
  have hsource : ∀ {other : Nat} {now : Node}, after.node? other = some now →
      ∃ node, arena.node? other = some node ∧
        now = if other ∈ chain then node.mark else node := by
    intro other now hnow
    rw [hmarked.node] at hnow
    obtain ⟨node, hnode, hsame⟩ := Option.map_eq_some_iff.mp hnow
    exact ⟨node, hnode, hsame.symm⟩
  have hsame : ∀ (other : Nat) (node : Node),
      (if other ∈ chain then node.mark else node).parent = node.parent ∧
        (if other ∈ chain then node.mark else node).children = node.children ∧
        (if other ∈ chain then node.mark else node).array = node.array := by
    intro other node
    split <;> exact ⟨rfl, rfl, rfl⟩
  refine ⟨by rw [hmarked.slots]; exact h.top, fun {upper child above index} habove hchild => ?_,
    fun {other now} hnow hdirty => ?_, fun {other above now index} hnow hup => ?_⟩
  · obtain ⟨node, hnode, rfl⟩ := hsource habove
    obtain ⟨-, hchildren, harray⟩ := hsame upper node
    rw [hchildren] at hchild
    obtain ⟨hlater, hreaches, below, hbelow, hup, hflag⟩ := h.linked hnode hchild
    rw [harray]
    refine ⟨hlater, hreaches, _, by rw [hmarked.node, hbelow]; rfl, (hsame child below).1.trans hup,
      fun hunwritten => ?_⟩
    by_cases hmem : child ∈ chain
    · rw [if_pos (hmarked.rises hmem hbelow hup)]
      rfl
    · rw [if_neg hmem] at hunwritten
      have hdirty := hflag hunwritten
      split
      · rfl
      · exact hdirty
  · obtain ⟨node, hnode, rfl⟩ := hsource hnow
    split at hdirty
    · rw [if_pos ‹_›]
      rfl
    · rw [if_neg ‹_›]
      exact h.flags hnode hdirty
  · obtain ⟨node, hnode, rfl⟩ := hsource hnow
    obtain ⟨hparent, -, harray⟩ := hsame other node
    rw [harray]
    exact h.parent hnode (hparent.symm.trans hup)

/-- What an operation may leave: a disciplined arena with so many slots more at most. -/
structure Leaves (steps : Nat) (arena after : Arena) : Prop where
  disciplined : after.Disciplined
  kept : arena.slots ≤ after.slots
  taken : after.slots ≤ arena.slots + steps

theorem Leaves.refl (h : arena.Disciplined) : Leaves 0 arena arena :=
  ⟨h, Nat.le_refl _, Nat.le_refl _⟩

theorem Leaves.mono {steps more : Nat} {after : Arena} (h : Leaves steps arena after)
    (hmore : steps ≤ more) : Leaves more arena after :=
  ⟨h.disciplined, h.kept, Nat.le_trans h.taken (Nat.add_le_add_left hmore _)⟩

private theorem Leaves.of_slots {after : Arena} (h : after.Disciplined)
    (hslots : after.slots = arena.slots) : Leaves 0 arena after :=
  ⟨h, Nat.le_of_eq hslots.symm, Nat.le_of_eq hslots⟩

theorem Leaves.trans {first second : Nat} {middle after : Arena} (h : Leaves first arena middle)
    (h' : Leaves second middle after) : Leaves (first + second) arena after :=
  ⟨h'.disciplined, Nat.le_trans h.kept h'.kept, by have := h.taken; have := h'.taken; omega⟩

/-- After an operation another one follows unless the first one fails. -/
theorem Ends.follow {α β : Type} {first second steps : Nat} {act : Act α} {next : α → Act β}
    {good : α → Arena → Prop} (hsteps : first + second = steps)
    (hact : Ends act arena fun result middle => Leaves first arena middle ∧
      ∀ value, result = .ok value → good value middle)
    (hnext : ∀ {value middle}, middle.Disciplined → good value middle →
      Ends (next value) middle fun _ after => Leaves second middle after) :
    Ends (act >>= next) arena fun _ after => Leaves steps arena after := by
  subst hsteps
  rw [ends_bind]
  refine hact.mono fun result middle ⟨hleaves, hgood⟩ => ?_
  cases result with
  | error e => exact hleaves.mono (Nat.le_add_right first second)
  | ok value =>
    exact (hnext hleaves.disciplined (hgood value rfl)).mono fun _ after hafter =>
      hleaves.trans hafter

theorem invalidate_ends (h : arena.Disciplined) (hid : id < arena.slots) :
    Ends (invalidate id) arena fun _ after => Leaves 0 arena after := by
  refine (invalidate_marks h.ordered hid).mono ?_
  rintro result after ⟨-, chain, -, hmarked⟩
  exact .of_slots (hmarked.disciplined h) hmarked.slots

private theorem onArray_ends {α : Type} {ask : LazyArray → Except DataError α × LazyArray}
    (hask : ∀ array : LazyArray, array.Evolves (ask array).2) (h : arena.Disciplined)
    (hid : id < arena.slots) :
    Ends (onArray id ask) arena fun _ after => Leaves 0 arena after := by
  obtain ⟨node, hnode⟩ := node?_eq_some_of_lt hid
  rw [ends_onArray hnode]
  exact .of_slots (h.withArray hnode (hask node.array)) (slots_update _ _)

/-- A step of a walk stays where it is or takes the next slot. -/
theorem enter_ends (h : arena.Disciplined) (hid : id < arena.slots) (trail : Path) (index : UInt8) :
    Ends (enter trail id index) arena fun result after =>
      Leaves 1 arena after ∧ ∀ child, result = .ok child → child < after.slots := by
  obtain ⟨node, hnode⟩ := node?_eq_some_of_lt hid
  simp only [enter, ends_bind, ends_look hnode, follows_ok]
  cases hchild : node.children index with
  | some child =>
    obtain ⟨-, -, below, hbelow, -⟩ := h.linked hnode hchild
    refine (ends_pure child).mpr ⟨(Leaves.refl h).mono (Nat.zero_le 1), fun same hsame => ?_⟩
    cases hsame
    exact lt_slots hbelow
  | none =>
    simp only [ends_bind, ends_onArray hnode]
    have hmiddle := h.withArray hnode (node.array.evolves_get index.toNat)
    have hleaves := (Leaves.of_slots hmiddle (slots_update _ _)).mono (Nat.zero_le 1)
    cases hget : node.array.get index.toNat with
    | mk result array =>
      rw [hget] at hmiddle hleaves
      cases result with
      | error e => exact ⟨hleaves, fun _ hok => by cases hok⟩
      | ok element =>
        have hnode' := node?_update_self (fun old => old.withArray array) hnode
        have hreaches : (node.withArray array).array.Reaches index.toNat :=
          LazyArray.reaches_of_get hget
        simp only [blamed, follows_ok]
        cases hopen : (LazyArray.ofBytes element Tree.maxElements).materialize with
        | error e => exact (ends_throw _).mpr ⟨hleaves, fun _ hok => by cases hok⟩
        | ok own =>
          simp only [ends_modifyGet]
          refine ⟨⟨hmiddle.attach hnode' hreaches (LazyArray.inner_materialize hopen), ?_, ?_⟩,
            fun child hok => ?_⟩
          · rw [slots_attach, slots_update]
            exact Nat.le_succ _
          · exact Nat.le_of_eq (by rw [slots_attach, slots_update])
          · cases hok
            rw [slots_attach]
            exact Nat.lt_succ_self _

private theorem descend_ends (h : arena.Disciplined) (hid : id < arena.slots) (trail path : Path) :
    Ends (descend trail id path) arena fun result after =>
      Leaves path.length arena after ∧ ∀ slot, result = .ok slot → slot < after.slots := by
  induction path generalizing arena id trail with
  | nil =>
    refine (ends_pure id).mpr ⟨.refl h, fun slot hok => ?_⟩
    cases hok
    exact hid
  | cons index rest ih =>
    rw [descend, ends_bind]
    refine (enter_ends h hid trail index).mono fun result middle ⟨hfirst, hslot⟩ => ?_
    cases result with
    | error e => exact ⟨hfirst.mono (by simp), fun _ hok => by cases hok⟩
    | ok child =>
      refine (ih hfirst.disciplined (hslot child rfl) (trail.child index)).mono ?_
      rintro result after ⟨hrest, hlast⟩
      exact ⟨(hfirst.trans hrest).mono (by simp [Nat.add_comm]), hlast⟩

private theorem locate_ends (h : arena.Disciplined) (path : Path) :
    Ends (locate path) arena fun result after =>
      Leaves path.length arena after ∧ ∀ slot, result = .ok slot → slot < after.slots := by
  cases path with
  | cons index rest => exact descend_ends h h.top [] (index :: rest)
  | nil =>
    obtain ⟨node, hnode⟩ := node?_eq_some_of_lt h.top
    simp only [locate, ends_onArray hnode]
    have hslots : ∀ array : LazyArray,
        (arena.update 0 fun old => old.withArray array).slots = arena.slots :=
      fun _ => slots_update _ _
    cases hopen : node.array.materialize with
    | error e =>
      exact ⟨.of_slots (h.withArray hnode (.refl _)) (hslots _), fun _ hok => by cases hok⟩
    | ok opened =>
      refine ⟨.of_slots (h.withArray hnode (LazyArray.evolves_materialize hopen)) (hslots _),
        fun slot hok => ?_⟩
      cases hok
      rw [hslots]
      exact h.top

theorem bytesOf_ends (h : arena.Disciplined) (hid : id < arena.slots) :
    Ends (bytesOf id) arena fun _ after => Leaves 0 arena after := by
  have hsync : Ends (sync id) arena fun result middle =>
      Leaves 0 arena middle ∧ ∀ value, result = .ok value → id < middle.slots := by
    refine (sync_ends h hid).mono fun result middle hsynced => ?_
    have hslots := hsynced.settles.slots
    exact ⟨.of_slots hsynced.disciplined hslots, fun _ _ => hslots ▸ hid⟩
  exact hsync.follow rfl fun hmiddle hid => onArray_ends LazyArray.evolves_bytes hmiddle hid

private theorem elementBytes_ends (h : arena.Disciplined) (hid : id < arena.slots) (path : Path)
    (index : UInt8) :
    Ends (elementBytes path index id) arena fun _ after => Leaves 0 arena after := by
  obtain ⟨node, hnode⟩ := node?_eq_some_of_lt hid
  simp only [elementBytes, ends_bind, ends_look hnode, follows_ok]
  cases hchild : node.children index with
  | some child =>
    obtain ⟨-, -, below, hbelow, -⟩ := h.linked hnode hchild
    exact bytesOf_ends h (lt_slots hbelow)
  | none =>
    refine onArray_ends (fun array => ?_) h hid
    have hread := array.evolves_get index.toNat
    split <;> rename_i hget <;> rw [hget] at hread <;> exact hread

theorem bytesAt_ends (h : arena.Disciplined) (path : Path) :
    Ends (bytesAt path) arena fun _ after => Leaves path.length arena after := by
  unfold bytesAt
  split
  · exact (bytesOf_ends h h.top).mono fun _ _ hleaves => hleaves.mono (Nat.zero_le _)
  · refine ((locate_ends h path.dropLast).follow rfl fun hmiddle hid =>
      elementBytes_ends hmiddle hid path _).mono fun _ _ hleaves => hleaves.mono ?_
    simp

/-- A question to the array at a path. -/
theorem locate_onArray_ends {α : Type} {ask : LazyArray → Except DataError α × LazyArray}
    (hask : ∀ array : LazyArray, array.Evolves (ask array).2) (h : arena.Disciplined) (path : Path) :
    Ends (locate path >>= fun id => onArray id ask) arena fun _ after =>
      Leaves path.length arena after :=
  (locate_ends h path).follow rfl fun hmiddle hid => onArray_ends hask hmiddle hid

/-- A slot that an array is asked for is still there afterwards. -/
theorem onArray_ends_at {α : Type} {ask : LazyArray → Except DataError α × LazyArray}
    (hask : ∀ array : LazyArray, array.Evolves (ask array).2) (h : arena.Disciplined)
    (hid : id < arena.slots) :
    Ends (onArray id ask) arena fun result after =>
      Leaves 0 arena after ∧ ∀ value, result = .ok value → id < after.slots :=
  (onArray_ends hask h hid).mono fun _ _ hleaves =>
    ⟨hleaves, fun _ _ => Nat.lt_of_lt_of_le hid hleaves.kept⟩

theorem pushAt_ends (h : arena.Disciplined) (data : Bytes) (path : Path) :
    Ends (pushAt data path) arena fun _ after => Leaves path.length arena after := by
  refine (locate_ends h path).follow (Nat.add_zero _) fun hmiddle hid => ?_
  refine (onArray_ends_at (fun array => array.evolves_push data) hmiddle hid).follow
    (Nat.add_zero _) fun hpushed hid => ?_
  rw [ends_bind]
  refine (invalidate_ends hpushed hid).mono fun result after hleaves => ?_
  cases result with
  | error e => exact hleaves
  | ok _ => exact (ends_pure _).mpr hleaves

theorem setAt_ends (h : arena.Disciplined) (index : UInt8) (data : Bytes) (path : Path) :
    Ends (setAt index data path) arena fun _ after => Leaves path.length arena after := by
  refine (locate_ends h path).follow (Nat.add_zero _) fun hmiddle hid => ?_
  refine (onArray_ends_at (fun array => array.evolves_set index.toNat data) hmiddle hid).follow
    (Nat.add_zero _) fun {_ changed} hchanged hid => ?_
  obtain ⟨node, hnode⟩ := node?_eq_some_of_lt hid
  rw [ends_bind, ends_change, follows_ok]
  have hunlinked := hchanged.unlink hnode index
  refine (invalidate_ends hunlinked (by rw [slots_update]; exact hid)).mono fun _ _ hleaves => ?_
  exact ⟨hleaves.disciplined, by simpa using hleaves.kept, by simpa using hleaves.taken⟩

/-- The copy that is handed out is disciplined as well, and has one slot. -/
theorem subtreeAt_ends (h : arena.Disciplined) (path : Path) :
    Ends (subtreeAt path) arena fun result after => Leaves path.length arena after ∧
      ∀ copy, result = .ok copy → copy.Disciplined ∧ copy.slots = 1 := by
  rw [subtreeAt, ends_bind]
  refine (bytesAt_ends h path).mono fun result middle hleaves => ?_
  cases result with
  | error e => exact ⟨hleaves, fun _ hok => by cases hok⟩
  | ok packed =>
    rw [follows_ok]
    split
    · exact (ends_throw _).mpr ⟨hleaves, fun _ hok => by cases hok⟩
    · refine (ends_pure _).mpr ⟨hleaves, fun copy hok => ?_⟩
      cases hok
      exact ⟨disciplined_ofArray _, rfl⟩

end
end ByteFormula.Arena
