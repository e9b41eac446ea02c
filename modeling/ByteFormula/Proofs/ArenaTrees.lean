import ByteFormula.Proofs.ArenaOperations

/-! An arena as a tree. What can be reached from a slot is a tree, and writing back in the arena is
writing back in that tree: both come to the same result, and the one leaves what the other leaves,
also when it fails half way. -/
namespace ByteFormula

namespace Arena

/-- The tree of what can be reached from a slot. -/
inductive Shows (arena : Arena) : Nat → Tree → Prop where
  | node {id : Nat} {node : Node} {branches : Branches} (hnode : arena.node? id = some node)
    (hsorted : branches.Sorted)
    (hnone : ∀ {index}, node.children index = none → branches.get? index = none)
    (hsome : ∀ {index child}, node.children index = some child →
      ∃ tree, branches.get? index = some tree)
    (hbelow : ∀ {index child tree}, node.children index = some child →
      branches.get? index = some tree → Shows arena child tree) :
    Shows arena id (.node node.array branches node.dirty node.unwritten)

def Bears (arena : Arena) (children : UInt8 → Option Nat) (branch : UInt8 → Option Tree) : Prop :=
  ∀ index, children index = none ∧ branch index = none ∨
    ∃ child tree, children index = some child ∧ branch index = some tree ∧ arena.Shows child tree

/-- Slots that are not `touched` are as they were. -/
def Spares (touched : Nat → Prop) (arena after : Arena) : Prop :=
  ∀ ⦃id : Nat⦄ ⦃node : Node⦄, arena.node? id = some node → ¬ touched id →
    after.node? id = some node

section

variable {arena after : Arena} {id : Nat} {node : Node} {tree : Tree} {touched : Nat → Prop}
  {branch : UInt8 → Option Tree} {index : UInt8} {child : Nat}

private theorem Bears.shows_link {children : UInt8 → Option Nat} (h : arena.Bears children branch)
    (hchild : children index = some child) (htree : branch index = some tree) :
    arena.Shows child tree := by
  obtain ⟨hnone, -⟩ | ⟨_, _, hsame, hagain, hshows⟩ := h index
  · cases hnone.symm.trans hchild
  · cases hchild.symm.trans hsame
    cases htree.symm.trans hagain
    exact hshows

theorem Shows.intro {branches : Branches} (hnode : arena.node? id = some node)
    (hsorted : branches.Sorted)
    (hbears : arena.Bears node.children fun index => branches.get? index) :
    arena.Shows id (.node node.array branches node.dirty node.unwritten) := by
  refine .node hnode hsorted (fun {index} hnone => ?_) (fun {index child} hchild => ?_)
    fun {index child tree} hchild htree => ?_
  · obtain ⟨-, hsame⟩ | ⟨child, tree, hchild, -⟩ := hbears index
    · exact hsame
    · cases hnone.symm.trans hchild
  · obtain ⟨hnone, -⟩ | ⟨other, tree, -, htree, -⟩ := hbears index
    · cases hnone.symm.trans hchild
    · exact ⟨tree, htree⟩
  · exact hbears.shows_link hchild htree

theorem Shows.elim (h : arena.Shows id tree) : ∃ node branches, arena.node? id = some node ∧
    tree = .node node.array branches node.dirty node.unwritten ∧ branches.Sorted ∧
      arena.Bears node.children fun index => branches.get? index := by
  obtain ⟨hnode, hsorted, hnone, hsome, hbelow⟩ := h
  refine ⟨_, _, hnode, rfl, hsorted, fun index => ?_⟩
  rename_i node branches
  cases hchild : node.children index with
  | none => exact .inl ⟨rfl, hnone hchild⟩
  | some child =>
    obtain ⟨tree, htree⟩ := hsome hchild
    exact .inr ⟨child, tree, rfl, htree, hbelow hchild htree⟩

/-- A tree is still shown if nothing that belongs to it was touched. -/
theorem Shows.spared (h : arena.Shows id tree) (hspares : Spares touched arena after)
    (hfar : ∀ {other}, arena.Leads id other → ¬ touched other) : after.Shows id tree := by
  induction h with
  | node hnode hsorted hnone hsome _ ih =>
    exact .node (hspares hnode (hfar (.refl _))) hsorted hnone hsome fun hchild htree =>
      ih hchild htree fun hleads => hfar (.step hnode hchild hleads)

theorem Bears.spared {children : UInt8 → Option Nat} (h : arena.Bears children branch)
    (hspares : Spares touched arena after)
    (hfar : ∀ {index child other}, children index = some child → arena.Leads child other →
      ¬ touched other) : after.Bears children branch := by
  intro index
  obtain hnone | ⟨child, tree, hchild, htree, hshows⟩ := h index
  · exact .inl hnone
  · exact .inr ⟨child, tree, hchild, htree, hshows.spared hspares (hfar hchild)⟩

theorem spares_update (id : Nat) (change : Node → Node) :
    Spares (· = id) arena (arena.update id change) := by
  intro other node hnode hother
  rw [node?_update_other change hother, hnode]

namespace Ordered

/-- Whatever can be reached from elsewhere is reached through its parent. -/
theorem parent_of_leads (h : arena.Ordered) {other : Nat} (hleads : arena.Leads id other) :
    id = other ∨ ∃ node above index, arena.node? other = some node ∧
      node.parent = some (above, index) ∧ above < other ∧ arena.Leads id above := by
  induction hleads with
  | refl id => exact .inl rfl
  | @step id child other node index hnode hchild hleads ih =>
    refine .inr ?_
    rcases ih with rfl | ⟨now, above, i, hnow, hparent, hlater, habove⟩
    · obtain ⟨hlater, below, hbelow, hparent⟩ := h.linked hnode hchild
      exact ⟨below, id, index, hbelow, hparent, hlater, .refl id⟩
    · exact ⟨now, above, i, hnow, hparent, hlater, .step hnode hchild habove⟩

/-- Nothing can be reached through two links of one slot. -/
theorem siblings (h : arena.Ordered) (hnode : arena.node? id = some node)
    (hchild : node.children index = some child) {other : UInt8} {sibling slot : Nat}
    (hsibling : node.children other = some sibling) (hleads : arena.Leads child slot)
    (hother : arena.Leads sibling slot) : other = index := by
  obtain ⟨-, below, hbelow, hparent⟩ := h.linked hnode hchild
  obtain ⟨-, beside, hbeside, hparent'⟩ := h.linked hnode hsibling
  -- Both ways to the slot end with its parent, so the induction goes up to the two children.
  induction slot using Nat.strongRecOn with
  | ind slot ih =>
    rcases h.parent_of_leads hleads with rfl | ⟨now, above, i, hnow, hup, hlater, habove⟩
    · rcases h.parent_of_leads hother with rfl | ⟨now, above, i, hnow, hup, -, habove⟩
      · cases hbelow.symm.trans hbeside
        cases hparent.symm.trans hparent'
        rfl
      · cases hbelow.symm.trans hnow
        cases hparent.symm.trans hup
        exact absurd habove (h.not_leads hnode hsibling)
    · rcases h.parent_of_leads hother with rfl | ⟨same, upper, j, hsame, hupper, -, habove'⟩
      · cases hbeside.symm.trans hnow
        cases hparent'.symm.trans hup
        exact absurd habove (h.not_leads hnode hchild)
      · cases hnow.symm.trans hsame
        cases hup.symm.trans hupper
        exact ih above hlater habove habove'

end Ordered

/-- One link of a slot leads to another tree now, and only that tree and the slot were touched. -/
theorem Bears.place (h : arena.Ordered) (hnode : arena.node? id = some node)
    (hbears : arena.Bears node.children branch) (hchild : node.children index = some child)
    (hspares : Spares (fun other => other = id ∨ arena.Leads child other) arena after)
    (hshows : after.Shows child tree) :
    after.Bears node.children fun i => if i = index then some tree else branch i := by
  intro i
  by_cases hsame : i = index
  · subst hsame
    exact .inr ⟨child, tree, hchild, if_pos rfl, hshows⟩
  · simp only [if_neg hsame]
    obtain hnone | ⟨sibling, beside, hsibling, hbeside, hstill⟩ := hbears i
    · exact .inl hnone
    · refine .inr ⟨sibling, beside, hsibling, hbeside, hstill.spared hspares fun hleads => ?_⟩
      rintro (rfl | hother)
      · exact h.not_leads hnode hsibling hleads
      · exact hsame (h.siblings hnode hchild hsibling hother hleads)

/-- A change of the slot itself does not reach what its links lead to. -/
theorem Bears.update (h : arena.Ordered) (hnode : arena.node? id = some node)
    (hbears : arena.Bears node.children branch) (change : Node → Node) :
    (arena.update id change).Bears node.children branch :=
  hbears.spared (spares_update id change) fun hchild hleads hsame =>
    h.not_leads hnode hchild (hsame ▸ hleads)

/-- A change of a slot that keeps its links is a change of the tree at its top. -/
theorem Shows.update {branches : Branches} {now : Node} (h : arena.Ordered)
    (hnode : arena.node? id = some node) (hsorted : branches.Sorted)
    (hbears : arena.Bears node.children fun index => branches.get? index) {change : Node → Node}
    (hnow : change node = now) (hchildren : now.children = node.children) :
    (arena.update id change).Shows id (.node now.array branches now.dirty now.unwritten) := by
  refine .intro (by rw [node?_update_self change hnode, hnow]) hsorted ?_
  rw [hchildren]
  exact hbears.update h hnode change

def SyncsTo (id : Nat) (tree : Tree) (result : Except DataError Unit) (after : Arena) : Prop :=
  result = tree.sync.1 ∧ after.Shows id tree.sync.2

/-- Writing one link of a slot back is writing its branch into the array of the slot. -/
def PutsTo (id : Nat) (node : Node) (child : Nat)
    (outcome : Except DataError Unit × LazyArray × Tree) (result : Except DataError Unit)
    (after : Arena) : Prop :=
  result = outcome.1 ∧ after.node? id = some (node.withArray outcome.2.1) ∧
    after.Shows child outcome.2.2

/-- Writing some links of a slot back is writing their branches back. The other links lead to what
they led to. -/
def WritesTo (id : Nat) (node : Node) (branch : UInt8 → Option Tree)
    (outcome : Except DataError Unit × LazyArray × Branches) (result : Except DataError Unit)
    (after : Arena) : Prop :=
  result = outcome.1 ∧ after.node? id = some (node.withArray outcome.2.1) ∧
    after.Bears node.children fun index => (outcome.2.2.get? index).or (branch index)

/-- What putting the bytes of an array into the element above leaves of the two. -/
theorem putBack_shows (h : arena.Disciplined) (hnode : arena.node? id = some node)
    (hchild : node.children index = some child) (hshows : arena.Shows child tree) :
    Ends (putBack id index child) arena (PutsTo id node child (tree.putBack index node.array)) := by
  obtain ⟨below, branches, hbelow, rfl, hsorted, hbears⟩ := hshows.elim
  have hlater := (h.linked hnode hchild).1
  rw [putBack, ends_bind, ends_onArray hbelow]
  have hown := below.array.evolves_bytes
  rcases hbytes : below.array.bytes with ⟨e | packed, own⟩
  all_goals
    rw [hbytes] at hown
    have hfirst := h.withArray hbelow hown
    have hnode₁ :=
      (node?_update_other (fun old => old.withArray own) (Nat.ne_of_lt hlater)).trans hnode
    have hpacked : (arena.update child fun old => old.withArray own).Shows child
        (.node own branches below.dirty below.unwritten) :=
      Shows.update h.ordered hbelow hsorted hbears rfl rfl
  · simp only [follows_error, PutsTo, Tree.putBack, Tree.array, hbytes]
    exact ⟨trivial, hnode₁, hpacked⟩
  rw [follows_ok, ends_bind, ends_onArray hnode₁]
  have hgrown := node.array.evolves_set index.toNat packed
  rcases hset : node.array.set index.toNat packed with ⟨e | done, array⟩
  all_goals
    rw [hset] at hgrown
    have hsecond := hfirst.withArray hnode₁ hgrown
    have hnode₂ := node?_update_self (fun old => old.withArray array) hnode₁
    have hkept := hpacked.spared (spares_update id fun old => old.withArray array)
      fun hleads hsame => hfirst.ordered.not_leads hnode₁ hchild (hsame ▸ hleads)
  · simp only [follows_error, PutsTo, Tree.putBack, Tree.array, hbytes, hset]
    exact ⟨trivial, hnode₂, hkept⟩
  obtain ⟨below₂, _, hbelow₂, heq, hsorted₂, hbears₂⟩ := hkept.elim
  injection heq with harray hbranches hdirty _
  subst harray hbranches
  simp only [follows_ok, ends_change, PutsTo, Tree.putBack, Tree.array, hbytes, hset]
  refine ⟨trivial, (node?_update_other Node.written (Nat.ne_of_lt hlater)).trans hnode₂, ?_⟩
  simp only [Tree.written, Tree.withArray, Tree.array, Tree.branches, Tree.dirty, hdirty]
  exact Shows.update hsecond.ordered hbelow₂ hsorted₂ hbears₂ rfl rfl

/-- Writing one array back is the write-back of one branch. -/
theorem writeElement_shows {refresh : Nat → Act Unit} (h : arena.Disciplined)
    (hnode : arena.node? id = some node) (hchild : node.children index = some child)
    (hshows : arena.Shows child tree) (hended : Ends (refresh child) arena (Synced child arena))
    (hsync : Ends (refresh child) arena (SyncsTo child tree)) :
    Ends (writeElement refresh id index child) arena
      (PutsTo id node child (tree.writeInto index node.array)) := by
  obtain ⟨below, branches, hbelow, rfl, -⟩ := hshows.elim
  rw [writeElement]
  simp only [ends_bind, ends_look hbelow, follows_ok]
  cases hflag : below.unwritten with
  | false =>
    rw [Tree.writeInto_written rfl, ← hflag]
    simp only [hflag, Bool.false_eq_true, if_false, ends_pure]
    exact ⟨rfl, hnode, hflag ▸ hshows⟩
  | true =>
    rw [Tree.writeInto_unwritten rfl, ← hflag]
    simp only [hflag, if_true, ends_bind]
    refine (hended.and hsync).mono ?_
    rintro result middle ⟨hsynced, rfl, hmiddle⟩
    have hnode₁ : middle.node? id = some node :=
      (hsynced.settles.kept (h.ordered.not_leads hnode hchild)).trans hnode
    rw [hflag] at hmiddle hsynced ⊢
    rcases hrun : (Tree.node below.array branches below.dirty true).sync with ⟨e | done, synced⟩
    · rw [hrun] at hmiddle
      exact ⟨rfl, hnode₁, hmiddle⟩
    · rw [hrun] at hmiddle hsynced
      exact putBack_shows hsynced.disciplined hnode₁ hchild hmiddle

/-- Writing one link back touches the slot and what is below the link. -/
private theorem WroteBack.spares {result : Except DataError Unit}
    (h : WroteBack id [(index, child)] arena result after) :
    Spares (fun other => other = id ∨ arena.Leads child other) arena after := by
  intro other node hnode hfar
  refine (h.writing.settles.kept fun htouched => hfar (htouched.imp_right ?_)).trans hnode
  rintro ⟨link, hlink, hleads⟩
  cases List.mem_singleton.mp hlink
  exact hleads

section

variable {others written : Branches}

private theorem get?_first_or (hsorted : (Branches.branch index tree others).Sorted)
    (hknown : ∀ {i beside}, (Branches.branch index tree others).get? i = some beside →
      branch i = some beside) (now : Tree) :
    (fun i => ((Branches.branch index now others).get? i).or (branch i)) =
      fun i => if i = index then some now else branch i := by
  funext i
  by_cases hi : i = index
  · simp [hi]
  · rw [Branches.get?_branch, if_neg (Ne.symm hi), if_neg hi]
    cases hget : others.get? i with
    | none => rfl
    | some beside => exact (hknown (hsorted.get?_of_rest hget)).symm

private theorem get?_rest_or (hgone : written.get? index = none) (now : Tree) :
    (fun i => (written.get? i).or (if i = index then some now else branch i)) =
      fun i => ((Branches.branch index now written).get? i).or (branch i) := by
  funext i
  by_cases hi : i = index
  · simp [hi, hgone]
  · rw [Branches.get?_branch, if_neg (Ne.symm hi), if_neg hi]

end

/-- Writing several arrays back is the write-back of their branches. -/
theorem writeBack_shows {refresh : Nat → Act Unit} {links : List (UInt8 × Nat)}
    {branches : Branches} (h : arena.Disciplined) (hnode : arena.node? id = some node)
    (hlinks : ∀ link ∈ links, node.children link.1 = some link.2)
    (hindices : links.map Prod.fst = branches.indices) (hsorted : branches.Sorted)
    (hknown : ∀ {index tree}, branches.get? index = some tree → branch index = some tree)
    (hbears : arena.Bears node.children branch)
    (hended : ∀ {child : Nat} {now : Arena}, id < child → child < now.slots → now.Disciplined →
      now.slots = arena.slots → Ends (refresh child) now (Synced child now))
    (hsync : ∀ {child : Nat} {now : Arena} {tree : Tree}, id < child → now.Disciplined →
      now.slots = arena.slots → now.Shows child tree → Ends (refresh child) now (SyncsTo child tree)) :
    Ends (writeBack refresh id links) arena
      (WritesTo id node branch (branches.writeBack node.array)) := by
  induction links generalizing arena node branch branches with
  | nil =>
    cases branches with
    | branch => cases hindices
    | none =>
      rw [writeBack, ends_pure]
      exact ⟨rfl, hnode, hbears⟩
  | cons link rest ih =>
    obtain ⟨index, child⟩ := link
    cases branches with
    | none => cases hindices
    | branch first tree others =>
      obtain ⟨rfl, hothers⟩ := List.cons.inj hindices
      have hchild := hlinks (index, child) List.mem_cons_self
      obtain ⟨hlater, -, below, hbelow, -⟩ := h.linked hnode hchild
      have htree : branch index = some tree := hknown (by simp)
      have hshows := hbears.shows_link hchild htree
      rw [writeBack, ends_bind]
      have hfirst := hended hlater (lt_slots hbelow) h rfl
      refine ((writeElement_ends h hnode hchild hfirst).and
        (writeElement_shows h hnode hchild hshows hfirst (hsync hlater h rfl hshows))).mono ?_
      rintro result middle ⟨hwrote, rfl, hmiddle, hnow⟩
      have hstill := Bears.place h.ordered hnode hbears hchild hwrote.spares hnow
      rcases hinto : tree.writeInto index node.array with ⟨e | done, filled, now⟩
      · rw [hinto] at hmiddle hstill
        rw [Branches.writeBack_of_error hinto]
        refine ⟨rfl, hmiddle, ?_⟩
        rw [get?_first_or hsorted hknown]
        exact hstill
      · rw [hinto] at hmiddle hstill hwrote
        rw [Branches.writeBack_of_ok hinto]
        have hslots := hwrote.writing.settles.slots
        refine (ih hwrote.writing.disciplined hmiddle
          (fun link hlink => hlinks link (List.mem_cons_of_mem _ hlink)) hothers hsorted.rest
          (fun {i beside} hbeside => ?_) hstill
          (fun hafter hbound hdisciplined hsame =>
            hended hafter hbound hdisciplined (hsame.trans hslots))
          fun hafter hdisciplined hsame => hsync hafter hdisciplined (hsame.trans hslots)).mono ?_
        · have hi : i ≠ index := by
            rintro rfl
            cases hsorted.get?_first.symm.trans hbeside
          rw [if_neg hi]
          exact hknown (hsorted.get?_of_rest hbeside)
        rintro result after ⟨rfl, hafter, hlast⟩
        refine ⟨rfl, hafter, ?_⟩
        have hgone := (Branches.get?_eq_none_congr (others.indices_writeBack filled) index).mpr
          hsorted.get?_first
        rw [← get?_rest_or hgone]
        exact hlast

/-- The links of a slot have the indices of the branches that they lead to. -/
theorem Bears.map_links {branches : Branches} (hsorted : branches.Sorted)
    (hbears : arena.Bears node.children fun index => branches.get? index) :
    node.links.map Prod.fst = branches.indices := by
  have hlinks := node.sorted_links
  have hperm : (node.links.map Prod.fst).Perm branches.indices := by
    rw [List.perm_ext_iff_of_nodup (hlinks.imp UInt8.ne_of_lt) (hsorted.imp UInt8.ne_of_lt)]
    intro index
    rw [Branches.mem_indices, List.mem_map]
    obtain ⟨hnone, hlacks⟩ | ⟨child, tree, hchild, htree, -⟩ := hbears index
    · simp only [hlacks, ne_eq, not_true, iff_false]
      rintro ⟨⟨i, child⟩, hlink, rfl⟩
      cases hnone.symm.trans (Node.mem_links.mp hlink)
    · simp only [htree, ne_eq, reduceCtorEq, not_false_eq_true, iff_true]
      exact ⟨(index, child), Node.mem_links.mpr hchild, rfl⟩
  exact hperm.eq_of_pairwise (fun _ _ _ _ hlt hgt => absurd hgt (UInt8.lt_asymm hlt)) hlinks hsorted

/-- Writing back in the arena is writing back in the tree, at every slot. -/
theorem syncWithin_shows (h : arena.Disciplined) (hshows : arena.Shows id tree) {room : Nat}
    (hroom : arena.slots ≤ id + room) : Ends (syncWithin room id) arena (SyncsTo id tree) := by
  induction room generalizing arena id tree with
  | zero =>
    obtain ⟨node, branches, hnode, -⟩ := hshows.elim
    exact absurd (lt_slots hnode) (Nat.not_lt.mpr hroom)
  | succ room ih =>
    obtain ⟨node, branches, hnode, rfl, hsorted, hbears⟩ := hshows.elim
    rw [syncWithin]
    simp only [ends_bind, ends_look hnode, follows_ok]
    cases hdirty : node.dirty with
    | false =>
      rw [hdirty] at hshows
      simp only [Bool.false_eq_true, if_false, ends_pure, SyncsTo, Tree.sync]
      exact ⟨trivial, hshows⟩
    | true =>
      simp only [if_true, ends_bind]
      have hlinks : ∀ link ∈ node.links, node.children link.1 = some link.2 :=
        fun link hlink => Node.mem_links.mp hlink
      have hended : ∀ {child : Nat} {now : Arena}, id < child → child < now.slots →
          now.Disciplined → now.slots = arena.slots →
          Ends (syncWithin room child) now (Synced child now) := fun hlater hbound hnow hslots =>
        syncWithin_ends hnow hbound (by omega)
      refine ((writeBack_ends h hnode hlinks hended).and (writeBack_shows h hnode hlinks
        (hbears.map_links hsorted) hsorted (fun htree => htree) hbears hended
        fun hlater hnow hslots hbelow => ih hnow hbelow (by omega))).mono ?_
      rintro result middle ⟨hwrote, rfl, hmiddle, hstill⟩
      have hsame := branches.indices_writeBack node.array
      have hbranches : (fun index => ((branches.writeBack node.array).2.2.get? index).or
          (branches.get? index)) = fun index => (branches.writeBack node.array).2.2.get? index := by
        funext index
        cases hget : (branches.writeBack node.array).2.2.get? index with
        | none => exact (Branches.get?_eq_none_congr hsame index).mp hget
        | some tree => rfl
      rw [hbranches] at hstill
      have hafter := hsorted.congr hsame
      rcases hrun : branches.writeBack node.array with ⟨e | done, array, written⟩
      all_goals
        rw [hrun] at hmiddle hstill hafter
      · simp only [SyncsTo, Tree.sync, hrun, if_true, follows_error]
        exact ⟨trivial, hdirty ▸ Shows.intro hmiddle hafter hstill⟩
      · rw [hrun] at hwrote
        simp only [SyncsTo, Tree.sync, hrun, if_true, follows_ok, ends_change]
        exact ⟨trivial, Shows.update hwrote.writing.disciplined.ordered hmiddle hafter hstill rfl rfl⟩

theorem sync_shows (h : arena.Disciplined) (hshows : arena.Shows id tree) :
    Ends (sync id) arena (SyncsTo id tree) :=
  (ends_sync_iff id).mpr (syncWithin_shows h hshows (Nat.le_add_left _ _))

end
end Arena
end ByteFormula
