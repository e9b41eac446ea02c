import ByteFormula.Proofs.Arena

/-! What holds of every arena: links and parents name each other and lead to later slots, and the
two flags imply each other along the links. Writing back clears the flags below a slot and leaves
every other slot alone. -/
namespace ByteFormula

def DataError.isOverlong : DataError → Bool
  | .elementTooLong _ => true
  | _ => false

private theorem LengthClass.overlong_of_forLength {length : Nat} {e : DataError}
    (h : forLength length = .error e) : e.isOverlong = true := by
  unfold forLength at h
  repeat' split at h
  all_goals cases h
  rfl

namespace LazyArray

/-- An array that has been read from an element: open, and no longer than an index can tell. -/
def Inner (array : LazyArray) : Prop :=
  ∃ elements cached, array = ⟨.opened elements cached, Tree.maxElements⟩ ∧
    elements.size ≤ Tree.maxElements

/-- What may become of an array: it keeps its elements in reach, and once it is an inner one it
stays that. -/
structure Evolves (before after : LazyArray) : Prop where
  grows : before.Grows after
  inner : before.Inner → after.Inner

theorem Evolves.refl (array : LazyArray) : array.Evolves array :=
  ⟨.refl array, id⟩

theorem Evolves.trans {array middle after : LazyArray} (h : array.Evolves middle)
    (h' : middle.Evolves after) : array.Evolves after :=
  ⟨h.grows.trans h'.grows, fun hinner => h'.inner (h.inner hinner)⟩

theorem inner_materialize {element : Bytes} {own : LazyArray}
    (h : (ofBytes element Tree.maxElements).materialize = .ok own) : own.Inner := by
  simp only [materialize, ofBytes] at h
  split at h
  · cases h
  · rename_i elements hunpack
    cases h
    have hlength : elements.length ≤ Tree.maxElements := Packing.length_unpack hunpack
    exact ⟨_, _, rfl, by simpa using hlength⟩

theorem evolves_materialize {array opened : LazyArray} (h : array.materialize = .ok opened) :
    array.Evolves opened := by
  refine ⟨(grows_materialize h).1, ?_⟩
  rintro ⟨elements, cached, rfl, hsize⟩
  cases h
  exact ⟨elements, cached, rfl, hsize⟩

theorem evolves_read {α : Type} (array : LazyArray) (answer : Array Bytes → Except DataError α) :
    array.Evolves (array.read answer).2 := by
  refine ⟨array.grows_read answer, ?_⟩
  rintro ⟨elements, cached, rfl, hsize⟩
  exact ⟨elements, cached, rfl, hsize⟩

theorem evolves_get (array : LazyArray) (index : Nat) : array.Evolves (array.get index).2 :=
  array.evolves_read _

theorem evolves_push (array : LazyArray) (data : Bytes) : array.Evolves (array.push data).2 := by
  refine ⟨array.grows_push data, ?_⟩
  rintro ⟨elements, cached, rfl, hsize⟩
  simp only [push, materialize]
  split
  · exact ⟨elements, cached, rfl, hsize⟩
  split
  · exact ⟨elements, none, rfl, hsize⟩
  · refine ⟨elements.push data, none, rfl, ?_⟩
    simp only [Array.size_push]
    omega

theorem evolves_set (array : LazyArray) (index : Nat) (data : Bytes) :
    array.Evolves (array.set index data).2 := by
  refine ⟨array.grows_set index data, ?_⟩
  rintro ⟨elements, cached, rfl, hsize⟩
  simp only [set, materialize]
  split
  · exact ⟨elements, cached, rfl, hsize⟩
  split
  · exact ⟨_, none, rfl, by simpa using hsize⟩
  · exact ⟨elements, cached, rfl, hsize⟩

theorem evolves_bytes (array : LazyArray) : array.Evolves array.bytes.2 := by
  refine ⟨array.grows_bytes, ?_⟩
  rintro ⟨elements, cached, rfl, hsize⟩
  cases cached with
  | some raw => exact ⟨elements, some raw, rfl, hsize⟩
  | none =>
    simp only [bytes]
    split
    · exact ⟨elements, none, rfl, hsize⟩
    · exact ⟨elements, _, rfl, hsize⟩

/-- An inner array can only fail to be packed because an element is too long. -/
theorem Inner.overlong_of_bytes {array : LazyArray} (h : array.Inner) {e : DataError}
    (hbytes : array.bytes.1 = .error e) : e.isOverlong = true := by
  obtain ⟨elements, cached, rfl, hsize⟩ := h
  cases cached with
  | some raw => cases hbytes
  | none =>
    have hcount : ¬ Packing.maxElements < elements.toList.length := by
      simp only [Array.length_toList]
      simp only [Tree.maxElements, Packing.maxElements] at hsize ⊢
      omega
    simp only [bytes, Packing.pack, hcount, if_false] at hbytes
    cases hclass : LengthClass.forLength (Packing.longest elements.toList) with
    | ok c => simp [hclass] at hbytes
    | error other =>
      simp only [hclass] at hbytes
      cases hbytes
      exact LengthClass.overlong_of_forLength hclass

/-- An element within reach can only be refused for being too long. -/
theorem Reaches.overlong_of_set {array : LazyArray} {index : Nat} (h : array.Reaches index)
    {data : Bytes} {e : DataError} (hset : (array.set index data).1 = .error e) :
    e.isOverlong = true := by
  obtain ⟨form, limit⟩ := array
  obtain ⟨elements, cached, hform, hindex⟩ := h
  cases hform
  cases hclass : LengthClass.forLength data.length with
  | ok c => simp [set, hclass, materialize, hindex] at hset
  | error other =>
    simp only [set, hclass] at hset
    cases hset
    exact LengthClass.overlong_of_forLength hclass

end LazyArray

namespace Arena

/-- Every link leads to a later slot, which names the link, and stands under an element of the array
above; a slot that is dirty is unwritten, and what is linked and unwritten stands below something
dirty. Slots that have lost their link still name an earlier slot. -/
structure Disciplined (arena : Arena) : Prop where
  top : 0 < arena.slots
  linked : ∀ {id child : Nat} {node : Node} {index : UInt8}, arena.node? id = some node →
    node.children index = some child → id < child ∧ node.array.Reaches index.toNat ∧
      ∃ below, arena.node? child = some below ∧ below.parent = some (id, index) ∧
        (below.unwritten = true → node.dirty = true)
  flags : ∀ {id : Nat} {node : Node}, arena.node? id = some node → node.dirty = true →
    node.unwritten = true
  parent : ∀ {id above : Nat} {node : Node} {index : UInt8}, arena.node? id = some node →
    node.parent = some (above, index) → above < id ∧ node.array.Inner

/-- The links and parents on their own, whatever the flags say. -/
structure Ordered (arena : Arena) : Prop where
  linked : ∀ {id child : Nat} {node : Node} {index : UInt8}, arena.node? id = some node →
    node.children index = some child → id < child ∧
      ∃ below, arena.node? child = some below ∧ below.parent = some (id, index)
  parent : ∀ {id above : Nat} {node : Node} {index : UInt8}, arena.node? id = some node →
    node.parent = some (above, index) → above < id

theorem Disciplined.ordered {arena : Arena} (h : arena.Disciplined) : arena.Ordered where
  linked hnode hchild := by
    obtain ⟨hlater, -, below, hbelow, hparent, -⟩ := h.linked hnode hchild
    exact ⟨hlater, below, hbelow, hparent⟩
  parent hnode hparent := (h.parent hnode hparent).1

/-- A slot can be reached from another through links. -/
inductive Leads (arena : Arena) : Nat → Nat → Prop where
  | refl (id : Nat) : Leads arena id id
  | step {id child other : Nat} {node : Node} {index : UInt8} (hnode : arena.node? id = some node)
    (hchild : node.children index = some child) (h : Leads arena child other) :
    Leads arena id other

/-- A slot and everything below it is clean, and everything strictly below it is written. -/
def Settled (arena : Arena) (id : Nat) : Prop :=
  ∀ ⦃other : Nat⦄ ⦃node : Node⦄, arena.Leads id other → arena.node? other = some node →
    node.dirty = false ∧ (other ≠ id → node.unwritten = false)

def Written (arena : Arena) (id : Nat) : Prop :=
  ∀ ⦃node : Node⦄, arena.node? id = some node → node.unwritten = false

section

variable {arena : Arena} {id : Nat} {node : Node}

/-- A flag that is up only together with another one is down if that one is. -/
theorem flag_down {flag other : Bool} (h : flag = true → other = true) (hother : other = false) :
    flag = false := by
  cases flag with
  | false => rfl
  | true => cases hother.symm.trans (h rfl)

theorem disciplined_ofArray (array : LazyArray) : (ofArray array).Disciplined := by
  have honly : ∀ {id : Nat} {node : Node}, (ofArray array).node? id = some node →
      node = .fresh array none := by
    intro id node hnode
    simp only [ofArray, node?] at hnode
    exact List.mem_singleton.mp (List.mem_of_getElem? hnode)
  refine ⟨Nat.zero_lt_one, fun hnode hchild => ?_, fun hnode hdirty => ?_, fun hnode hparent => ?_⟩
  · cases honly hnode
    cases hchild
  · cases honly hnode
    cases hdirty
  · cases honly hnode
    cases hparent

/-- A slot whose children are settled and written is settled as soon as it is clean. -/
theorem settled_of_children (hnode : arena.node? id = some node)
    (hclean : node.dirty = false)
    (hchildren : ∀ {index child}, node.children index = some child →
      arena.Settled child ∧ arena.Written child) : arena.Settled id := by
  intro other now hleads hnow
  cases hleads with
  | refl =>
    cases hnode.symm.trans hnow
    exact ⟨hclean, fun hne => absurd rfl hne⟩
  | @step _ child _ above index habove hchild hleads =>
    cases habove.symm.trans hnode
    obtain ⟨hsettled, hwritten⟩ := hchildren hchild
    obtain ⟨hcleaned, hstrictly⟩ := hsettled hleads hnow
    refine ⟨hcleaned, fun _ => ?_⟩
    by_cases hsame : other = child
    · exact hwritten (hsame ▸ hnow)
    · exact hstrictly hsame

namespace Ordered

private theorem le_of_leads (h : arena.Ordered) {other : Nat} (hleads : arena.Leads id other) :
    id ≤ other := by
  induction hleads with
  | refl id => exact Nat.le_refl id
  | step hnode hchild _ ih => exact Nat.le_of_lt (Nat.lt_of_lt_of_le (h.linked hnode hchild).1 ih)

theorem not_leads (h : arena.Ordered) (hnode : arena.node? id = some node) {index : UInt8}
    {child : Nat} (hchild : node.children index = some child) : ¬ arena.Leads child id :=
  fun hleads => Nat.not_le_of_lt (h.linked hnode hchild).1 (h.le_of_leads hleads)

theorem update (h : arena.Ordered) (id : Nat) {change : Node → Node}
    (hparent : ∀ node, (change node).parent = node.parent)
    (hchildren : ∀ node, (change node).children = node.children) :
    (arena.update id change).Ordered := by
  have hsource : ∀ {other : Nat} {now : Node}, (arena.update id change).node? other = some now →
      ∃ node, arena.node? other = some node ∧ now.parent = node.parent ∧
        now.children = node.children := by
    intro other now hnow
    rw [node?_update] at hnow
    split at hnow
    · rename_i hsame
      subst hsame
      obtain ⟨node, hnode, rfl⟩ := Option.map_eq_some_iff.mp hnow
      exact ⟨node, hnode, hparent node, hchildren node⟩
    · exact ⟨now, hnow, rfl, rfl⟩
  refine ⟨fun {above child upper index} hupper hchild => ?_, fun hnow hup => ?_⟩
  · obtain ⟨node, hnode, -, hsame⟩ := hsource hupper
    obtain ⟨hlater, below, hbelow, hup⟩ := h.linked hnode (hsame ▸ hchild)
    by_cases hself : child = id
    · subst hself
      exact ⟨hlater, _, node?_update_self change hbelow, (hparent below).trans hup⟩
    · exact ⟨hlater, below, by rw [node?_update_other change hself, hbelow], hup⟩
  · obtain ⟨node, hnode, hsame, -⟩ := hsource hnow
    exact h.parent hnode (hsame.symm.trans hup)

theorem mark (h : arena.Ordered) (id : Nat) : (arena.update id Node.mark).Ordered :=
  h.update id (fun _ => rfl) fun _ => rfl

end Ordered

namespace Disciplined

/-- Below a clean slot nothing waits to be written. -/
theorem written_of_clean (h : arena.Disciplined) (hnode : arena.node? id = some node)
    (hclean : node.dirty = false) {index : UInt8} {child : Nat}
    (hchild : node.children index = some child) :
    arena.Written child ∧ ∀ {below}, arena.node? child = some below → below.dirty = false := by
  obtain ⟨-, -, below, hbelow, -, hdirty⟩ := h.linked hnode hchild
  have hwritten : below.unwritten = false := flag_down hdirty hclean
  constructor
  · intro same hsame
    cases hbelow.symm.trans hsame
    exact hwritten
  · intro same hsame
    cases hbelow.symm.trans hsame
    exact flag_down (h.flags hbelow) hwritten

theorem settled_of_clean (h : arena.Disciplined) (hnode : arena.node? id = some node)
    (hclean : node.dirty = false) : arena.Settled id := by
  -- The slots grow along the links, so the induction is on how many are left above this one.
  induction hleft : arena.slots - id using Nat.strongRecOn generalizing id node with
  | ind left ih =>
    refine settled_of_children hnode hclean fun {index child} hchild => ?_
    obtain ⟨hwritten, hcleaned⟩ := h.written_of_clean hnode hclean hchild
    obtain ⟨hlater, -, below, hbelow, -⟩ := h.linked hnode hchild
    have hbound := lt_slots hbelow
    exact ⟨ih _ (by omega) hbelow (hcleaned hbelow) rfl, hwritten⟩

/-- One slot changes, keeps its parent and gets no new links. Its flags may be cleared: the dirty
one if nothing below is unwritten, the other one if the dirty one is cleared too. -/
theorem update (h : arena.Disciplined) (hnode : arena.node? id = some node) {change : Node → Node}
    (hparent : (change node).parent = node.parent)
    (hchildren : ∀ {index child}, (change node).children index = some child →
      node.children index = some child)
    (harray : node.array.Evolves (change node).array)
    (hflags : (change node).dirty = true → (change node).unwritten = true)
    (habove : (change node).unwritten = true → node.unwritten = true)
    (hbelow : ∀ {index child below}, (change node).children index = some child →
      arena.node? child = some below → below.unwritten = true → (change node).dirty = true) :
    (arena.update id change).Disciplined := by
  have hcases : ∀ {other : Nat} {now : Node}, (arena.update id change).node? other = some now →
      other = id ∧ now = change node ∨ other ≠ id ∧ arena.node? other = some now := by
    intro other now hnow
    by_cases hsame : other = id
    · subst hsame
      rw [node?_update_self change hnode] at hnow
      exact .inl ⟨rfl, (Option.some.inj hnow).symm⟩
    · rw [node?_update_other change hsame] at hnow
      exact .inr ⟨hsame, hnow⟩
  refine ⟨by rw [slots_update]; exact h.top, fun {above child upper index} hupper hchild => ?_,
    fun {other now} hnow hdirty => ?_, fun {other above now index} hnow hup => ?_⟩
  · obtain ⟨rfl, rfl⟩ | ⟨hne, hupper⟩ := hcases hupper
    · obtain ⟨hlater, hreaches, below, hchildAt, hup, -⟩ := h.linked hnode (hchildren hchild)
      refine ⟨hlater, harray.grows.reaches hreaches, below, ?_, hup, hbelow hchild hchildAt⟩
      rw [node?_update_other change (Nat.ne_of_gt hlater), hchildAt]
    · obtain ⟨hlater, hreaches, below, hchildAt, hup, hdirty⟩ := h.linked hupper hchild
      by_cases hsame : child = id
      · subst hsame
        cases hnode.symm.trans hchildAt
        exact ⟨hlater, hreaches, _, node?_update_self change hnode, hparent.trans hup,
          fun hunwritten => hdirty (habove hunwritten)⟩
      · exact ⟨hlater, hreaches, below, by rw [node?_update_other change hsame, hchildAt], hup,
          hdirty⟩
  · obtain ⟨rfl, rfl⟩ | ⟨-, hnow⟩ := hcases hnow
    · exact hflags hdirty
    · exact h.flags hnow hdirty
  · obtain ⟨rfl, rfl⟩ | ⟨-, hnow⟩ := hcases hnow
    · obtain ⟨hearlier, hinner⟩ := h.parent hnode (hparent.symm.trans hup)
      exact ⟨hearlier, harray.inner hinner⟩
    · exact h.parent hnow hup

/-- What is unwritten stands below something dirty. -/
theorem dirty_of_unwritten (h : arena.Disciplined) (hnode : arena.node? id = some node)
    {index : UInt8} {child : Nat} {below : Node} (hchild : node.children index = some child)
    (hbelow : arena.node? child = some below) (hunwritten : below.unwritten = true) :
    node.dirty = true := by
  obtain ⟨-, -, _, hsame, -, hdirty⟩ := h.linked hnode hchild
  cases hbelow.symm.trans hsame
  exact hdirty hunwritten

theorem withArray (h : arena.Disciplined) (hnode : arena.node? id = some node) {array : LazyArray}
    (harray : node.array.Evolves array) :
    (arena.update id fun old => old.withArray array).Disciplined := by
  have hflags := h.flags hnode
  exact h.update hnode rfl (fun hchild => hchild) harray hflags (fun hflag => hflag)
    (h.dirty_of_unwritten hnode)

theorem unlink (h : arena.Disciplined) (hnode : arena.node? id = some node) (index : UInt8) :
    (arena.update id fun old => old.link index none).Disciplined := by
  have hkept : ∀ {i : UInt8} {child : Nat}, (node.link index none).children i = some child →
      node.children i = some child := by
    intro i child hchild
    simp only [Node.link] at hchild
    split at hchild
    · cases hchild
    · exact hchild
  have hflags := h.flags hnode
  exact h.update hnode rfl hkept (.refl _) hflags (fun hflag => hflag)
    fun hchild => h.dirty_of_unwritten hnode (hkept hchild)

theorem clean (h : arena.Disciplined) (hnode : arena.node? id = some node)
    (hwritten : ∀ {index child}, node.children index = some child → arena.Written child) :
    (arena.update id Node.clean).Disciplined := by
  refine h.update hnode rfl (fun hchild => hchild) (.refl _) (fun hflag => by cases hflag)
    (fun hflag => hflag) fun hchild hbelow hunwritten => ?_
  cases (hwritten hchild hbelow).symm.trans hunwritten

theorem written (h : arena.Disciplined) (hnode : arena.node? id = some node)
    (hclean : node.dirty = false) : (arena.update id Node.written).Disciplined :=
  h.update hnode rfl (fun hchild => hchild) (.refl _)
    (fun hflag => by cases hclean.symm.trans hflag) (fun hflag => by cases hflag)
    (h.dirty_of_unwritten hnode)

/-- A slot taken for an element that had none. -/
theorem attach (h : arena.Disciplined) (hnode : arena.node? id = some node) {index : UInt8}
    {own : LazyArray} (hreaches : node.array.Reaches index.toNat) (hown : own.Inner) :
    (arena.attach id index own).Disciplined := by
  have hid := lt_slots hnode
  have hcases : ∀ {other : Nat} {now : Node},
      (arena.attach id index own).node? other = some now →
      other = arena.slots ∧ now = .fresh own (some (id, index)) ∨
        other = id ∧ now = node.link index (some arena.slots) ∨
        other ≠ id ∧ arena.node? other = some now := by
    intro other now hnow
    have hbound := lt_slots hnow
    rw [slots_attach] at hbound
    rcases Nat.lt_succ_iff_lt_or_eq.mp hbound with hold | rfl
    · rw [node?_attach_old hid hold] at hnow
      by_cases hsame : other = id
      · subst hsame
        rw [node?_update_self _ hnode] at hnow
        exact .inr (.inl ⟨rfl, (Option.some.inj hnow).symm⟩)
      · rw [node?_update_other _ hsame] at hnow
        exact .inr (.inr ⟨hsame, hnow⟩)
    · rw [node?_attach_new hid] at hnow
      exact .inl ⟨rfl, (Option.some.inj hnow).symm⟩
  have hold : ∀ {other : Nat} {now : Node}, arena.node? other = some now →
      ∃ after, (arena.attach id index own).node? other = some after ∧ after.parent = now.parent ∧
        after.unwritten = now.unwritten := by
    intro other now hnow
    rw [node?_attach_old hid (lt_slots hnow)]
    by_cases hsame : other = id
    · subst hsame
      cases hnode.symm.trans hnow
      exact ⟨_, node?_update_self _ hnode, rfl, rfl⟩
    · exact ⟨now, by rw [node?_update_other _ hsame, hnow], rfl, rfl⟩
  -- A link that was there before leads to the slot it led to.
  have hkept : ∀ {upper : Nat} {above : Node} {i : UInt8} {child : Nat},
      arena.node? upper = some above → above.children i = some child →
      upper < child ∧ above.array.Reaches i.toNat ∧
        ∃ below, (arena.attach id index own).node? child = some below ∧
          below.parent = some (upper, i) ∧ (below.unwritten = true → above.dirty = true) := by
    intro upper above i child habove hchild
    obtain ⟨hlater, hin, below, hbelow, hup, hdirty⟩ := h.linked habove hchild
    obtain ⟨after, hafter, hparent, hflag⟩ := hold hbelow
    exact ⟨hlater, hin, after, hafter, hparent.trans hup, fun hunwritten =>
      hdirty (hflag.symm.trans hunwritten)⟩
  refine ⟨by rw [slots_attach]; exact Nat.succ_pos _, fun {upper child above i} habove hchild => ?_,
    fun {other now} hnow hdirty => ?_, fun {other above now i} hnow hup => ?_⟩
  · obtain ⟨rfl, rfl⟩ | ⟨rfl, rfl⟩ | ⟨-, habove⟩ := hcases habove
    · cases hchild
    · simp only [Node.link] at hchild
      split at hchild
      · rename_i hi
        cases hchild
        cases hi
        exact ⟨hid, hreaches, _, node?_attach_new hid index own, rfl, fun hflag => by cases hflag⟩
      · have hlinked := hkept hnode hchild
        exact hlinked
    · exact hkept habove hchild
  · obtain ⟨rfl, rfl⟩ | ⟨rfl, rfl⟩ | ⟨-, hnow⟩ := hcases hnow
    · cases hdirty
    · have hflags := h.flags hnode
      exact hflags hdirty
    · exact h.flags hnow hdirty
  · obtain ⟨rfl, rfl⟩ | ⟨rfl, rfl⟩ | ⟨-, hnow⟩ := hcases hnow
    · cases hup
      exact ⟨hid, hown⟩
    · have hparent := h.parent hnode hup
      exact hparent
    · exact h.parent hnow hup

end Disciplined

/-- What writing back may do to a slot: flags are cleared, and the array evolves. -/
structure Node.Settles (node now : Node) : Prop where
  parent : now.parent = node.parent
  children : now.children = node.children
  array : node.array.Evolves now.array
  dirty : now.dirty = true → node.dirty = true
  unwritten : now.unwritten = true → node.unwritten = true

/-- What writing back may do to an arena: slots that are not `touched` stay as they are. -/
structure Settles (touched : Nat → Prop) (arena after : Arena) : Prop where
  slots : after.slots = arena.slots
  kept : ∀ {id : Nat}, ¬ touched id → after.node? id = arena.node? id
  node : ∀ {id : Nat} {node : Node}, arena.node? id = some node →
    ∃ now, after.node? id = some now ∧ node.Settles now

namespace Settles

variable {touched more : Nat → Prop} {middle after : Arena}

theorem refl (touched : Nat → Prop) (arena : Arena) : Settles touched arena arena :=
  ⟨rfl, fun _ => rfl, fun hnode => ⟨_, hnode, rfl, rfl, .refl _, id, id⟩⟩

theorem trans (h : Settles touched arena middle) (h' : Settles touched middle after) :
    Settles touched arena after where
  slots := h'.slots.trans h.slots
  kept huntouched := (h'.kept huntouched).trans (h.kept huntouched)
  node hnode := by
    obtain ⟨between, hbetween, hfirst⟩ := h.node hnode
    obtain ⟨now, hnow, hsecond⟩ := h'.node hbetween
    exact ⟨now, hnow, hsecond.parent.trans hfirst.parent, hsecond.children.trans hfirst.children,
      hfirst.array.trans hsecond.array, fun hflag => hfirst.dirty (hsecond.dirty hflag),
      fun hflag => hfirst.unwritten (hsecond.unwritten hflag)⟩

theorem mono (h : Settles touched arena after) (hmore : ∀ id, touched id → more id) :
    Settles more arena after :=
  ⟨h.slots, fun huntouched => h.kept fun htouched => huntouched (hmore _ htouched), h.node⟩

theorem update (hnode : arena.node? id = some node) {change : Node → Node}
    (hsettles : node.Settles (change node)) (htouched : touched id) :
    Settles touched arena (arena.update id change) where
  slots := slots_update id change
  kept {other} huntouched :=
    node?_update_other change fun hsame => huntouched (hsame ▸ htouched)
  node {other now} hnow := by
    by_cases hsame : other = id
    · subst hsame
      cases hnode.symm.trans hnow
      exact ⟨_, node?_update_self change hnode, hsettles⟩
    · exact ⟨now, by rw [node?_update_other change hsame, hnow], rfl, rfl, .refl _, fun h => h,
        fun h => h⟩

theorem source (h : Settles touched arena after) {id : Nat} {now : Node}
    (hnow : after.node? id = some now) : ∃ node, arena.node? id = some node ∧ node.Settles now := by
  obtain ⟨node, hnode⟩ := node?_eq_some_of_lt (h.slots ▸ lt_slots hnow)
  obtain ⟨same, hsame, hsettles⟩ := h.node hnode
  cases hnow.symm.trans hsame
  exact ⟨node, hnode, hsettles⟩

/-- The links stay, and so does what they lead to. -/
theorem leads_iff (h : Settles touched arena after) {id other : Nat} :
    after.Leads id other ↔ arena.Leads id other := by
  constructor
  · intro hleads
    induction hleads with
    | refl id => exact .refl id
    | step hnow hchild _ ih =>
      obtain ⟨node, hnode, hsettles⟩ := h.source hnow
      exact .step hnode (hsettles.children ▸ hchild) ih
  · intro hleads
    induction hleads with
    | refl id => exact .refl id
    | step hnode hchild _ ih =>
      obtain ⟨now, hnow, hsettles⟩ := h.node hnode
      exact .step hnow (hsettles.children ▸ hchild) ih

end Settles

theorem Settled.settles {after : Arena} {touched : Nat → Prop} (h : arena.Settled id)
    (hsettles : Settles touched arena after) : after.Settled id := by
  intro other now hleads hnow
  obtain ⟨node, hnode, hcleared⟩ := hsettles.source hnow
  obtain ⟨hclean, hwritten⟩ := h (hsettles.leads_iff.mp hleads) hnode
  exact ⟨flag_down hcleared.dirty hclean, fun hother => flag_down hcleared.unwritten (hwritten hother)⟩

theorem Written.settles {after : Arena} {touched : Nat → Prop} (h : arena.Written id)
    (hsettles : Settles touched arena after) : after.Written id := by
  intro now hnow
  obtain ⟨node, hnode, hcleared⟩ := hsettles.source hnow
  exact flag_down hcleared.unwritten (h hnode)

end
end Arena
end ByteFormula
