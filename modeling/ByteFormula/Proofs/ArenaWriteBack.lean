import ByteFormula.Proofs.ArenaDiscipline

/-! Writing back in an arena. It ends, and when it succeeds everything below the slot is settled;
slots that are not below it stay as they are, and what it leaves when it fails is disciplined too. -/
namespace ByteFormula.Arena

structure Synced (id : Nat) (arena : Arena) (result : Except DataError Unit) (after : Arena) :
    Prop where
  disciplined : after.Disciplined
  settles : Settles (arena.Leads id) arena after
  settled : result = .ok () → after.Settled id
  failed : ∀ {e : DataError}, result = .error e → e.isOverlong = true

/-- What may happen while some of the arrays below a slot are written back: only these change, what
is below them, and the slot itself, which stays as dirty as it is. -/
structure Writing (id : Nat) (links : List (UInt8 × Nat)) (arena after : Arena) : Prop where
  disciplined : after.Disciplined
  settles : Settles (fun other => other = id ∨ ∃ link ∈ links, arena.Leads link.2 other) arena after
  dirty : ∀ {node now : Node}, arena.node? id = some node → after.node? id = some now →
    now.dirty = node.dirty

/-- What writing back some of the arrays below a slot may leave. -/
structure WroteBack (id : Nat) (links : List (UInt8 × Nat)) (arena : Arena)
    (result : Except DataError Unit) (after : Arena) : Prop where
  writing : Writing id links arena after
  done : result = .ok () → ∀ link ∈ links, after.Settled link.2 ∧ after.Written link.2
  failed : ∀ {e : DataError}, result = .error e → e.isOverlong = true

section

variable {arena : Arena} {id : Nat} {node : Node} {refresh : Nat → Act Unit}

namespace Writing

variable {links : List (UInt8 × Nat)} {middle after : Arena}

theorem refl (h : arena.Disciplined) (id : Nat) (links : List (UInt8 × Nat)) :
    Writing id links arena arena where
  disciplined := h
  settles := .refl _ arena
  dirty hnode hnow := by
    cases hnode.symm.trans hnow
    rfl

theorem mono {more : List (UInt8 × Nat)} (h : Writing id links arena after) (hmore : links ⊆ more) :
    Writing id more arena after where
  disciplined := h.disciplined
  settles := h.settles.mono fun _ htouched =>
    htouched.imp_right fun ⟨link, hlink, hleads⟩ => ⟨link, hmore hlink, hleads⟩
  dirty := h.dirty

theorem trans (h : Writing id links arena middle) (h' : Writing id links middle after) :
    Writing id links arena after where
  disciplined := h'.disciplined
  settles := h.settles.trans (h'.settles.mono fun _ htouched =>
    htouched.imp_right fun ⟨link, hlink, hleads⟩ => ⟨link, hlink, h.settles.leads_iff.mp hleads⟩)
  dirty hnode hnow := by
    obtain ⟨between, hbetween, -⟩ := h.settles.node hnode
    exact (h'.dirty hbetween hnow).trans (h.dirty hnode hbetween)

/-- One more change of a slot that may change, and not of what says that it is dirty. -/
theorem update (h : Writing id links arena middle) {slot : Nat} {now : Node} {change : Node → Node}
    (hslot : middle.node? slot = some now) (hsettles : now.Settles (change now))
    (hdirty : (change now).dirty = now.dirty)
    (htouched : slot = id ∨ ∃ link ∈ links, arena.Leads link.2 slot)
    (hafter : (middle.update slot change).Disciplined) :
    Writing id links arena (middle.update slot change) where
  disciplined := hafter
  settles := h.settles.trans (.update hslot hsettles htouched)
  dirty {node later} hnode hlater := by
    rw [node?_update] at hlater
    split at hlater
    · rename_i hsame
      cases hsame
      rw [hslot] at hlater
      cases hlater
      exact hdirty.trans (h.dirty hnode hslot)
    · exact h.dirty hnode hlater

theorem withArray (h : Writing id links arena middle) {slot : Nat} {now : Node} {array : LazyArray}
    (hslot : middle.node? slot = some now) (harray : now.array.Evolves array)
    (htouched : slot = id ∨ ∃ link ∈ links, arena.Leads link.2 slot) :
    Writing id links arena (middle.update slot fun old => old.withArray array) :=
  h.update hslot ⟨rfl, rfl, harray, fun hflag => hflag, fun hflag => hflag⟩ rfl htouched
    (h.disciplined.withArray hslot harray)

theorem written (h : Writing id links arena middle) {slot : Nat} {now : Node}
    (hslot : middle.node? slot = some now) (hclean : now.dirty = false)
    (htouched : slot = id ∨ ∃ link ∈ links, arena.Leads link.2 slot) :
    Writing id links arena (middle.update slot Node.written) :=
  h.update hslot ⟨rfl, rfl, .refl _, fun hflag => hflag, fun hflag => by cases hflag⟩ rfl htouched
    (h.disciplined.written hslot hclean)

end Writing

/-- The bytes of a settled array are put into the element above. -/
theorem putBack_ends (h : arena.Disciplined) (hnode : arena.node? id = some node)
    {index : UInt8} {child : Nat} (hchild : node.children index = some child)
    (hsettled : arena.Settled child) :
    Ends (putBack id index child) arena (WroteBack id [(index, child)] arena) := by
  obtain ⟨hlater, hreaches, below, hbelow, hparent, -⟩ := h.linked hnode hchild
  have htouched : child = id ∨ ∃ link ∈ [(index, child)], arena.Leads link.2 child :=
    .inr ⟨_, List.mem_singleton_self _, .refl child⟩
  rw [putBack, ends_bind, ends_onArray hbelow]
  have hfirst := (Writing.refl h id [(index, child)]).withArray hbelow below.array.evolves_bytes
    htouched
  have hnode₁ := (node?_update_other (fun old => old.withArray below.array.bytes.2)
    (Nat.ne_of_lt hlater)).trans hnode
  have hbelow₁ := node?_update_self (fun old => old.withArray below.array.bytes.2) hbelow
  cases hpacked : below.array.bytes.1 with
  | error e =>
    refine ⟨hfirst, (fun hok => by cases hok), fun hfail => ?_⟩
    cases hfail
    exact (h.parent hbelow hparent).2.overlong_of_bytes hpacked
  | ok packed =>
    rw [follows_ok, ends_bind, ends_onArray hnode₁]
    have hsecond := hfirst.withArray hnode₁ (node.array.evolves_set index.toNat packed) (.inl rfl)
    have hbelow₂ := (node?_update_other
      (fun old => old.withArray (node.array.set index.toNat packed).2)
      (Nat.ne_of_gt hlater)).trans hbelow₁
    cases hstored : (node.array.set index.toNat packed).1 with
    | error e =>
      refine ⟨hsecond, (fun hok => by cases hok), fun hfail => ?_⟩
      cases hfail
      exact hreaches.overlong_of_set hstored
    | ok _ =>
      rw [follows_ok, ends_change]
      have hthird := hsecond.written hbelow₂ (hsettled (.refl child) hbelow).1 htouched
      refine ⟨hthird, fun _ link hlink => ?_, fun hfail => by cases hfail⟩
      cases List.mem_singleton.mp hlink
      refine ⟨hsettled.settles hthird.settles, fun now hnow => ?_⟩
      cases (node?_update_self Node.written hbelow₂).symm.trans hnow
      rfl

/-- Writing one array back, given what becomes of it when it is itself brought up to date. -/
theorem writeElement_ends (h : arena.Disciplined) (hnode : arena.node? id = some node)
    {index : UInt8} {child : Nat} (hchild : node.children index = some child)
    (hsync : Ends (refresh child) arena (Synced child arena)) :
    Ends (writeElement refresh id index child) arena (WroteBack id [(index, child)] arena) := by
  obtain ⟨-, -, below, hbelow, -⟩ := h.linked hnode hchild
  rw [writeElement]
  simp only [ends_bind, ends_look hbelow, follows_ok]
  cases hflag : below.unwritten with
  | false =>
    -- The element is up to date, so the array read from it is clean.
    have hclean : below.dirty = false := flag_down (h.flags hbelow) hflag
    have hwritten : arena.Written child := by
      intro same hsame
      cases hbelow.symm.trans hsame
      exact hflag
    simp only [Bool.false_eq_true, if_false, ends_pure]
    refine ⟨.refl h _ _, fun _ link hlink => ?_, fun hfail => by cases hfail⟩
    cases List.mem_singleton.mp hlink
    exact ⟨h.settled_of_clean hbelow hclean, hwritten⟩
  | true =>
    simp only [if_true, ends_bind]
    refine hsync.mono fun result middle hsynced => ?_
    have hmiddle : middle.node? id = some node :=
      (hsynced.settles.kept (h.ordered.not_leads hnode hchild)).trans hnode
    have hfirst : Writing id [(index, child)] arena middle := by
      refine ⟨hsynced.disciplined, hsynced.settles.mono fun other hleads => ?_, fun hold hnow => ?_⟩
      · exact .inr ⟨_, List.mem_singleton_self _, hleads⟩
      · cases hnode.symm.trans hold
        cases hmiddle.symm.trans hnow
        rfl
    cases result with
    | error e => exact ⟨hfirst, (fun hok => by cases hok), hsynced.failed⟩
    | ok _ =>
      refine (putBack_ends hsynced.disciplined hmiddle hchild (hsynced.settled rfl)).mono ?_
      intro result after hput
      exact ⟨hfirst.trans hput.writing, hput.done, hput.failed⟩

/-- Writing several arrays back, one after the other. What one of them has settled the others leave
settled. -/
theorem writeBack_ends {links : List (UInt8 × Nat)} (h : arena.Disciplined)
    (hnode : arena.node? id = some node)
    (hlinks : ∀ link ∈ links, node.children link.1 = some link.2)
    (hsync : ∀ {child : Nat} {now : Arena}, id < child → child < now.slots → now.Disciplined →
      now.slots = arena.slots → Ends (refresh child) now (Synced child now)) :
    Ends (writeBack refresh id links) arena (WroteBack id links arena) := by
  induction links generalizing arena node with
  | nil =>
    rw [writeBack, ends_pure]
    exact ⟨.refl h id [], (fun _ link hlink => by cases hlink), fun hfail => by cases hfail⟩
  | cons link rest ih =>
    obtain ⟨index, child⟩ := link
    have hchild := hlinks (index, child) List.mem_cons_self
    obtain ⟨hlater, -, below, hbelow, -⟩ := h.linked hnode hchild
    rw [writeBack, ends_bind]
    refine (writeElement_ends h hnode hchild
      (hsync hlater (lt_slots hbelow) h rfl)).mono fun result middle hfirst => ?_
    have hwriting := hfirst.writing.mono (List.cons_subset_cons (index, child) (List.nil_subset rest))
    cases result with
    | error e => exact ⟨hwriting, (fun hok => by cases hok), hfirst.failed⟩
    | ok _ =>
      obtain ⟨now, hnow, hkept⟩ := hfirst.writing.settles.node hnode
      have hslots := hfirst.writing.settles.slots
      refine (ih hfirst.writing.disciplined hnow (fun link hlink => ?_)
        fun hafter hbound hdisciplined hsame => ?_).mono fun result after hrest => ?_
      · rw [hkept.children]
        exact hlinks link (List.mem_cons_of_mem _ hlink)
      · exact hsync hafter hbound hdisciplined (hsame.trans hslots)
      · refine ⟨hwriting.trans (hrest.writing.mono (List.subset_cons_self _ rest)), ?_, hrest.failed⟩
        intro hok link hlink
        rcases List.mem_cons.mp hlink with rfl | hlink
        · obtain ⟨hsettled, hwritten⟩ := hfirst.done rfl _ (List.mem_singleton_self _)
          exact ⟨hsettled.settles hrest.writing.settles, hwritten.settles hrest.writing.settles⟩
        · exact hrest.done hok link hlink

/-- Writing back ends and does what it should. The slots grow along the links, so there is room
enough for the slots that come after. -/
theorem syncWithin_ends (h : arena.Disciplined) (hid : id < arena.slots) {room : Nat}
    (hroom : arena.slots ≤ id + room) : Ends (syncWithin room id) arena (Synced id arena) := by
  induction room generalizing arena id with
  | zero => exact absurd hid (Nat.not_lt.mpr hroom)
  | succ room ih =>
    obtain ⟨node, hnode⟩ := node?_eq_some_of_lt hid
    rw [syncWithin]
    simp only [ends_bind, ends_look hnode, follows_ok]
    cases hdirty : node.dirty with
    | false =>
      simp only [Bool.false_eq_true, if_false, ends_pure]
      exact ⟨h, .refl _ arena, fun _ => h.settled_of_clean hnode hdirty, fun hfail => by cases hfail⟩
    | true =>
      simp only [if_true, ends_bind]
      refine (writeBack_ends h hnode (fun link hlink => Node.mem_links.mp hlink)
        fun hlater hbound hnow hslots => ih hnow hbound (by omega)).mono
        fun result middle hwrote => ?_
      have hsettles : Settles (arena.Leads id) arena middle := by
        refine hwrote.writing.settles.mono fun other htouched => ?_
        rcases htouched with rfl | ⟨link, hlink, hleads⟩
        · exact .refl other
        · exact .step hnode (Node.mem_links.mp hlink) hleads
      cases result with
      | error e =>
        exact ⟨hwrote.writing.disciplined, hsettles, (fun hok => by cases hok), hwrote.failed⟩
      | ok _ =>
        obtain ⟨now, hnow, hkept⟩ := hsettles.node hnode
        have hdone : ∀ {index : UInt8} {child : Nat}, now.children index = some child →
            middle.Settled child ∧ middle.Written child := by
          intro index child hchild
          rw [hkept.children] at hchild
          exact hwrote.done rfl (index, child) (Node.mem_links.mpr hchild)
        rw [follows_ok, ends_change]
        have hclean : Settles (middle.Leads id) middle (middle.update id Node.clean) :=
          .update hnow ⟨rfl, rfl, .refl _, (fun hflag => by cases hflag), fun hflag => hflag⟩ (.refl id)
        refine ⟨hwrote.writing.disciplined.clean hnow fun hchild => (hdone hchild).2,
          hsettles.trans (hclean.mono fun _ => hsettles.leads_iff.mp), fun _ => ?_,
          fun hfail => by cases hfail⟩
        refine settled_of_children (node?_update_self Node.clean hnow) rfl fun hchild => ?_
        obtain ⟨hsettled, hwritten⟩ := hdone hchild
        exact ⟨hsettled.settles hclean, hwritten.settles hclean⟩

theorem sync_ends (h : arena.Disciplined) (hid : id < arena.slots) :
    Ends (sync id) arena (Synced id arena) :=
  (ends_sync_iff id).mpr (syncWithin_ends h hid (Nat.le_add_left _ _))

end
end ByteFormula.Arena
