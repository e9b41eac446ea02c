import ByteFormula.Proofs.Executions

/-! When the arguments of calls are started. Each call gets a number of its own, so that calls that
stood on the stack at the same position one after the other are told apart. An argument of a call is
started again only if a fault came out of it. -/
namespace ByteFormula

variable {σ : Type}

/-- The numbers of the calls on the stack, the outermost first, and the number of the next call. -/
structure Numbering where
  calls : List Nat
  next : Nat

namespace Numbering

def outermost : Numbering := ⟨[0], 1⟩

def number (numbering : Numbering) (position : Nat) : Nat :=
  (numbering.calls[position]?).getD 0

def enter (numbering : Numbering) : Numbering :=
  ⟨numbering.calls ++ [numbering.next], numbering.next + 1⟩

def after (numbering : Numbering) : Event → Numbering
  | .enter _ _ _ _ => numbering.enter
  | .leave _ => ⟨numbering.calls.dropLast, numbering.next⟩
  | .ask _ _ | .start _ _ | .keep _ _ _ | .abandon _ _ => numbering

/-- No two calls on the stack have the same number, and the next number is a new one. -/
structure Fits (numbering : Numbering) (frames : Stack) : Prop where
  length : numbering.calls.length = frames.size
  nodup : numbering.calls.Nodup
  lt_next : ∀ call ∈ numbering.calls, call < numbering.next

end Numbering

def Event.rename (numbering : Numbering) : Event → Event
  | .enter _ function args scope => .enter numbering.next function args (numbering.number scope)
  | .leave call => .leave (numbering.number call)
  | .ask call index => .ask (numbering.number call) index
  | .start call index => .start (numbering.number call) index
  | .keep call index value => .keep (numbering.number call) index value
  | .abandon call index => .abandon (numbering.number call) index

def numbered (numbering : Numbering) : List Event → List Event
  | [] => []
  | event :: events => event.rename numbering :: numbered (numbering.after event) events

/-- What happens in the evaluation of a formula, with a number of its own for each call. -/
def Registry.log (registry : Registry σ) (surroundings : Surroundings σ) (state : σ)
    (formula : Formula) (args : List Bytes) : List Event :=
  numbered .outermost (registry.events surroundings state formula args)

theorem numbered_append (numbering : Numbering) (events rest : List Event) :
    numbered numbering (events ++ rest) =
      numbered numbering events ++ numbered (events.foldl Numbering.after numbering) rest := by
  induction events generalizing numbering with
  | nil => rfl
  | cons event events ih =>
    rw [List.cons_append, numbered, ih, numbered, List.foldl_cons, List.cons_append]

namespace Numbering

variable {numbering : Numbering} {frames after : Stack} {position other call : Nat}

theorem Fits.number (h : numbering.Fits frames) (hposition : position < frames.size) :
    numbering.calls[position]? = some (numbering.number position) := by
  rw [← h.length] at hposition
  rw [Numbering.number, List.getElem?_eq_getElem hposition, Option.getD_some]

theorem Fits.lt (h : numbering.Fits frames) (hcall : numbering.calls[position]? = some call) :
    call < numbering.next :=
  h.lt_next call (List.mem_of_getElem? hcall)

theorem Fits.inj (h : numbering.Fits frames) (hcall : numbering.calls[position]? = some call)
    (hother : numbering.calls[other]? = some call) : position = other :=
  (List.getElem?_inj (List.getElem?_eq_some_iff.mp hcall).1 h.nodup).mp (hcall.trans hother.symm)

theorem Fits.fills (h : numbering.Fits frames) (hfills : Stack.Fills frames after) {next : Nat}
    (hnext : numbering.next ≤ next) : Fits ⟨numbering.calls, next⟩ after :=
  ⟨h.length.trans hfills.size.symm, h.nodup,
    fun call hcall => Nat.lt_of_lt_of_le (h.lt_next call hcall) hnext⟩

theorem Fits.enter (h : numbering.Fits frames) (frame : Frame) :
    numbering.enter.Fits (frames.push frame) := by
  refine ⟨?_, ?_, ?_⟩
  · rw [Numbering.enter, List.length_append, h.length, Array.size_push, List.length_singleton]
  · refine List.nodup_append.mpr ⟨h.nodup, List.pairwise_singleton _ _, ?_⟩
    intro call hcall fresh hfresh
    rw [List.mem_singleton.mp hfresh]
    exact Nat.ne_of_lt (h.lt_next call hcall)
  · intro call hcall
    rcases List.mem_append.mp hcall with hold | hnew
    · exact Nat.lt_succ_of_lt (h.lt_next call hold)
    · rw [List.mem_singleton.mp hnew]
      exact Nat.lt_succ_self _

private theorem Fits.calls_enter (h : numbering.Fits frames)
    (hcall : numbering.enter.calls[position]? = some call) :
    numbering.calls[position]? = some call ∨ position = frames.size ∧ call = numbering.next := by
  rw [Numbering.enter, List.getElem?_append] at hcall
  split at hcall
  · exact .inl hcall
  · rename_i hge
    obtain ⟨hlt, hfresh⟩ := List.getElem?_eq_some_iff.mp hcall
    rw [List.getElem_singleton] at hfresh
    rw [List.length_singleton] at hlt
    exact .inr ⟨by rw [← h.length]; omega, hfresh.symm⟩

theorem Fits.number_enter (h : numbering.Fits frames) (hposition : position < frames.size) :
    numbering.enter.number position = numbering.number position := by
  rw [← h.length] at hposition
  rw [Numbering.number, Numbering.enter, List.getElem?_append_left hposition, Numbering.number]

theorem Fits.number_enter_size (h : numbering.Fits frames) :
    numbering.enter.number frames.size = numbering.next := by
  rw [← h.length, Numbering.number, Numbering.enter, List.getElem?_concat_length, Option.getD_some]

theorem outermost_fits (args : List Bytes) :
    outermost.Fits #[Frame.ofArgs (args.map Formula.data) 0] :=
  ⟨rfl, List.pairwise_singleton _ _, fun _ hcall => by
    rw [List.mem_singleton.mp hcall]
    exact Nat.zero_lt_one⟩

end Numbering

/-- Goes through a log with an eye on one argument: whether it has been started and not been
abandoned since. It comes to no result if the argument is started in that state. -/
def Event.track (call index : Nat) (taken : Bool) : Event → Option Bool
  | .start other place =>
    if other = call ∧ place = index then if taken then none else some true else some taken
  | .abandon other place => if other = call ∧ place = index then some false else some taken
  | .enter _ _ _ _ | .leave _ | .ask _ _ | .keep _ _ _ => some taken

section

variable {call index : Nat} {log rest : List Event}

private theorem track_append {taken middle : Bool}
    (h : log.foldlM (Event.track call index) taken = some middle) (rest : List Event) :
    (log ++ rest).foldlM (Event.track call index) taken =
      rest.foldlM (Event.track call index) middle := by
  rw [List.foldlM_append, h]
  rfl

/-- An argument that is not started is no trouble, and is not taken unless it was before. -/
theorem track_of_not_start (hstart : .start call index ∉ log) (taken : Bool) :
    ∃ last, log.foldlM (Event.track call index) taken = some last ∧ (last = true → taken = true) := by
  induction log generalizing taken with
  | nil => exact ⟨taken, rfl, id⟩
  | cons event log ih =>
    rw [List.mem_cons, not_or] at hstart
    have hevent : ∃ middle, event.track call index taken = some middle ∧
        (middle = true → taken = true) := by
      cases event with
      | start other place =>
        refine ⟨taken, if_neg ?_, id⟩
        rintro ⟨rfl, rfl⟩
        exact hstart.1 rfl
      | abandon other place =>
        rw [Event.track]
        split
        · exact ⟨false, rfl, fun h => by cases h⟩
        · exact ⟨taken, rfl, id⟩
      | _ => exact ⟨taken, rfl, id⟩
    obtain ⟨middle, hmiddle, htaken⟩ := hevent
    obtain ⟨last, hlast, hmiddle'⟩ := ih hstart.2 middle
    refine ⟨last, ?_, fun h => htaken (hmiddle' h)⟩
    rw [List.foldlM_cons, hmiddle]
    exact hlast

private theorem start_of_track (h : log.foldlM (Event.track call index) false = some true) :
    .start call index ∈ log := by
  apply Classical.byContradiction
  intro hstart
  obtain ⟨last, hlast, htaken⟩ := track_of_not_start hstart false
  rw [h] at hlast
  cases hlast
  cases htaken rfl

private theorem exists_track_of_append {taken last : Bool}
    (h : (log ++ rest).foldlM (Event.track call index) taken = some last) :
    ∃ middle, log.foldlM (Event.track call index) taken = some middle ∧
      rest.foldlM (Event.track call index) middle = some last := by
  rw [List.foldlM_append] at h
  exact Option.bind_eq_some_iff.mp h

/-- An argument that is taken stays so if it is not abandoned. -/
theorem track_of_not_abandon (habandon : .abandon call index ∉ log) {last : Bool}
    (h : log.foldlM (Event.track call index) true = some last) : last = true := by
  induction log with
  | nil =>
    cases h
    rfl
  | cons event log ih =>
    rw [List.mem_cons, not_or] at habandon
    rw [List.foldlM_cons] at h
    obtain ⟨middle, hmiddle, hlast⟩ := Option.bind_eq_some_iff.mp h
    have htaken : middle = true := by
      cases event with
      | start other place =>
        rw [Event.track] at hmiddle
        split at hmiddle
        · cases hmiddle
        · exact (Option.some.inj hmiddle).symm
      | abandon other place =>
        rw [Event.track, if_neg] at hmiddle
        · exact (Option.some.inj hmiddle).symm
        · rintro ⟨rfl, rfl⟩
          exact habandon.1 rfl
      | _ => exact (Option.some.inj hmiddle).symm
    subst htaken
    exact ih habandon.2 hlast

private theorem track_start {taken last : Bool}
    (h : (.start call index :: rest).foldlM (Event.track call index) taken = some last) :
    taken = false ∧ rest.foldlM (Event.track call index) true = some last := by
  rw [List.foldlM_cons, Event.track, if_pos ⟨rfl, rfl⟩] at h
  cases taken with
  | true => cases h
  | false => exact ⟨rfl, h⟩

/-- Between two starts of an argument it is abandoned. -/
theorem abandon_mem_of_track {before between : List Event} {last : Bool}
    (h : (before ++ .start call index :: (between ++ .start call index :: rest)).foldlM
      (Event.track call index) false = some last) : .abandon call index ∈ between := by
  apply Classical.byContradiction
  intro habandon
  obtain ⟨_, -, hfirst⟩ := exists_track_of_append h
  obtain ⟨middle, hmiddle, hsecond⟩ := exists_track_of_append (track_start hfirst).2
  cases track_of_not_abandon habandon hmiddle
  cases (track_start hsecond).1

end

/-- The frames at some positions refer to each other only. -/
structure Stack.Closed (frames : Stack) (within : Nat → Prop) : Prop where
  lt_size : ∀ ⦃position⦄, within position → position < frames.size
  scope : ∀ ⦃position frame⦄, within position → frames[position]? = some frame → within frame.scope

namespace Stack.Closed

variable {frames after : Stack} {within : Nat → Prop}

theorem fills (h : Closed frames within) (hfills : Fills frames after) : Closed after within := by
  refine ⟨fun _ hwithin => hfills.size ▸ h.lt_size hwithin, fun position filled hwithin hfilled => ?_⟩
  obtain ⟨frame, hframe, hsame⟩ := hfills.origin hfilled
  rw [hsame.scope]
  exact h.scope hwithin hframe

/-- A new call can reach its own frame and the frames that its scope can reach. -/
theorem push (h : Closed frames within) {scope : Nat} (hscope : within scope)
    (args : List Formula) :
    Closed (frames.push (Frame.ofArgs args scope)) fun position =>
      within position ∨ position = frames.size := by
  refine ⟨?_, ?_⟩
  · rintro position (hold | rfl)
    · exact Array.size_push .. ▸ Nat.lt_succ_of_lt (h.lt_size hold)
    · exact Array.size_push .. ▸ Nat.lt_succ_self _
  · rintro position frame hposition hframe
    rw [Array.getElem?_push] at hframe
    split at hframe
    · cases hframe
      exact .inl hscope
    · rename_i hne
      exact .inl (h.scope (hposition.resolve_right hne) hframe)

/-- What can be reached from a frame lies further out. -/
theorem below (h : Closed frames within) (hordered : Ordered frames) (bound : Nat) :
    Closed frames fun position => within position ∧ position ≤ bound := by
  refine ⟨fun _ hposition => h.lt_size hposition.1, fun position frame hposition hframe => ?_⟩
  refine ⟨h.scope hposition.1 hframe, ?_⟩
  rcases hordered hframe with hscope | ⟨rfl, hscope, -⟩ <;> omega

end Stack.Closed

/-- What becomes of the arguments of calls in a part of a log. Only those are started that had no
value before, at the given positions of the stack, and those of new calls. -/
structure Accounted (within : Nat → Prop) (numbering : Numbering) (before : Stack)
    (log : List Event) (after : Stack) (next : Nat) : Prop where
  grows : numbering.next ≤ next
  origin : ∀ ⦃call index⦄, .start call index ∈ log →
    (∃ position, within position ∧ numbering.calls[position]? = some call ∧
      Stack.Unset before position index) ∨ numbering.next ≤ call ∧ call < next
  tracked : ∀ call index, ∃ taken, log.foldlM (Event.track call index) false = some taken ∧
    (taken = true → ∀ ⦃position⦄, numbering.calls[position]? = some call →
      Stack.Kept after position index)

namespace Accounted

variable {within inner : Nat → Prop} {numbering : Numbering} {before middle after : Stack}
  {log rest : List Event} {next last position index call : Nat}

theorem nil (within : Nat → Prop) (numbering : Numbering) (before after : Stack) :
    Accounted within numbering before [] after numbering.next :=
  ⟨Nat.le_refl _, fun _ _ h => (List.not_mem_nil h).elim,
    fun _ _ => ⟨false, rfl, fun h => (Bool.false_ne_true h).elim⟩⟩

/-- Two parts of a log, one after the other. What the first has taken either has its value, so that
the second leaves it alone, or belongs to a call that the second does not see. -/
theorem append (h : Accounted within numbering before log middle next)
    (hrest : Accounted within ⟨numbering.calls, next⟩ middle rest after last)
    (hfits : numbering.Fits before) (hfills : Stack.Fills before middle)
    (hfills' : Stack.Fills middle after) :
    Accounted within numbering before (log ++ rest) after last := by
  refine ⟨Nat.le_trans h.grows hrest.grows, ?_, ?_⟩
  · intro call index hstart
    rcases List.mem_append.mp hstart with hlog | hlater
    · rcases h.origin hlog with hold | ⟨hlow, hhigh⟩
      · exact .inl hold
      · exact .inr ⟨hlow, Nat.lt_of_lt_of_le hhigh hrest.grows⟩
    · rcases hrest.origin hlater with ⟨position, hwithin, hcall, hunset⟩ | ⟨hlow, hhigh⟩
      · exact .inl ⟨position, hwithin, hcall, hfills.unset hunset⟩
      · exact .inr ⟨Nat.le_trans h.grows hlow, hhigh⟩
  · intro call index
    obtain ⟨taken, htaken, hkept⟩ := h.tracked call index
    cases taken with
    | false =>
      obtain ⟨final, hfinal, hkept'⟩ := hrest.tracked call index
      exact ⟨final, (track_append htaken rest).trans hfinal, hkept'⟩
    | true =>
      have hnot : .start call index ∉ rest := by
        intro hlater
        rcases h.origin (start_of_track htaken) with ⟨position, -, hcall, -⟩ | ⟨hlow, hhigh⟩
        · have hlt := hfits.lt hcall
          rcases hrest.origin hlater with ⟨other, -, hother, hunset⟩ | ⟨hlow, -⟩
          · cases hfits.inj hcall hother
            exact hunset.not_kept (hkept rfl hcall)
          · exact absurd (Nat.le_trans h.grows hlow) (Nat.not_le_of_lt hlt)
        · rcases hrest.origin hlater with ⟨other, -, hother, -⟩ | ⟨hlow', -⟩
          · exact absurd hlow (Nat.not_le_of_lt (hfits.lt hother))
          · exact absurd hhigh (Nat.not_lt_of_le hlow')
      obtain ⟨final, hfinal, -⟩ := track_of_not_start hnot true
      exact ⟨final, (track_append htaken rest).trans hfinal,
        fun _ position hcall => hfills'.kept (hkept rfl hcall)⟩

theorem ask (h : Accounted within numbering before log after next) (asker place : Nat) :
    Accounted within numbering before (.ask asker place :: log) after next := by
  refine ⟨h.grows, fun call index hstart => h.origin ?_, h.tracked⟩
  rcases List.mem_cons.mp hstart with heq | hlog
  · cases heq
  · exact hlog

/-- A call is a new one to those around it. -/
theorem enter {frame : Frame}
    (h : Accounted inner numbering.enter (before.push frame) log after next)
    (hinner : ∀ position, inner position → within position ∨ position = before.size)
    (hfits : numbering.Fits before) (hsize : after.size = before.size + 1)
    (function scope left : Nat) (args : List Formula) :
    Accounted within numbering before
      (.enter numbering.next function args scope :: log ++ [.leave left]) after.pop next := by
  have hnext : numbering.next < next := h.grows
  refine ⟨Nat.le_of_lt hnext, ?_, ?_⟩
  · intro call index hstart
    have hlog : .start call index ∈ log := by simpa using hstart
    rcases h.origin hlog with ⟨position, hposition, hcall, hunset⟩ | ⟨hlow, hhigh⟩
    · rcases hfits.calls_enter hcall with hold | ⟨-, rfl⟩
      · have hlt := hfits.length ▸ (List.getElem?_eq_some_iff.mp hold).1
        have hwithin := (hinner position hposition).resolve_right (Nat.ne_of_lt hlt)
        exact .inl ⟨position, hwithin, hold, hunset.of_push hlt⟩
      · exact .inr ⟨Nat.le_refl _, hnext⟩
    · exact .inr ⟨Nat.le_of_succ_le hlow, hhigh⟩
  · intro call index
    obtain ⟨taken, htaken, hkept⟩ := h.tracked call index
    refine ⟨taken, (track_append htaken _).trans rfl, fun heq position hcall => ?_⟩
    have hlt := (List.getElem?_eq_some_iff.mp hcall).1
    have hentered : numbering.enter.calls[position]? = some call := by
      rw [Numbering.enter, List.getElem?_append_left hlt, hcall]
    refine (hkept heq hentered).pop ?_
    rw [hfits.length] at hlt
    omega

/-- The formula of an argument leads elsewhere, and does not start the argument again. -/
theorem not_start (h : Accounted inner numbering before log after next)
    (hfits : numbering.Fits before) (hcall : numbering.calls[position]? = some call)
    (hinner : ¬ inner position) : .start call index ∉ log := by
  intro hstart
  rcases h.origin hstart with ⟨other, hother, hsame, -⟩ | ⟨hlow, -⟩
  · cases hfits.inj hcall hsame
    exact hinner hother
  · exact absurd hlow (Nat.not_le_of_lt (hfits.lt hcall))

private theorem start_origin (h : Accounted inner numbering before log after next) {event : Event}
    (hevent : ∀ call index, event ≠ .start call index)
    (hinner : ∀ position, inner position → within position) (hwithin : within position)
    (hcall : numbering.calls[position]? = some call) (hunset : Stack.Unset before position index)
    ⦃other place : Nat⦄ (hstart : .start other place ∈ .start call index :: log ++ [event]) :
    (∃ position, within position ∧ numbering.calls[position]? = some other ∧
      Stack.Unset before position place) ∨ numbering.next ≤ other ∧ other < next := by
  rw [List.cons_append, List.mem_cons, List.mem_append, List.mem_singleton] at hstart
  rcases hstart with heq | hlog | heq
  · cases heq
    exact .inl ⟨position, hwithin, hcall, hunset⟩
  · exact (h.origin hlog).imp_left fun ⟨found, hfound, hrest⟩ => ⟨found, hinner found hfound, hrest⟩
  · exact absurd heq.symm (hevent other place)

theorem keep {σ : Type} {machine : Machine σ}
    (h : Accounted inner numbering before log machine.frames next)
    (hfits : numbering.Fits before) (hfills : Stack.Fills before machine.frames)
    (hinner : ∀ position, inner position → within position) (hwithin : within position)
    (hposition : ¬ inner position) (hcall : numbering.calls[position]? = some call)
    (hunset : Stack.Unset before position index) (value : Bytes) :
    Accounted within numbering before (.start call index :: log ++ [.keep call index value])
      (machine.store position index value).frames next := by
  refine ⟨h.grows, h.start_origin (fun _ _ h => by cases h) hinner hwithin hcall hunset, ?_⟩
  intro other place
  by_cases hsame : call = other ∧ index = place
  · obtain ⟨rfl, rfl⟩ := hsame
    obtain ⟨taken, htaken, -⟩ := track_of_not_start (h.not_start hfits hcall hposition) true
    refine ⟨taken, ?_, fun _ found hfound => ?_⟩
    · rw [List.cons_append, List.foldlM_cons, Event.track, if_pos ⟨rfl, rfl⟩]
      exact (track_append htaken _).trans rfl
    · cases hfits.inj hcall hfound
      exact Machine.kept_store hfills hunset value
  · obtain ⟨taken, htaken, hkept⟩ := h.tracked other place
    refine ⟨taken, ?_, fun heq found hfound => ?_⟩
    · rw [List.cons_append, List.foldlM_cons, Event.track, if_neg hsame]
      exact (track_append htaken _).trans rfl
    · exact Machine.kept_store_of_kept (hkept heq hfound) position index value

theorem abandon (h : Accounted inner numbering before log after next)
    (hfits : numbering.Fits before) (hinner : ∀ position, inner position → within position)
    (hwithin : within position) (hposition : ¬ inner position)
    (hcall : numbering.calls[position]? = some call)
    (hunset : Stack.Unset before position index) :
    Accounted within numbering before (.start call index :: log ++ [.abandon call index]) after
      next := by
  refine ⟨h.grows, h.start_origin (fun _ _ h => by cases h) hinner hwithin hcall hunset, ?_⟩
  intro other place
  by_cases hsame : call = other ∧ index = place
  · obtain ⟨rfl, rfl⟩ := hsame
    obtain ⟨taken, htaken, -⟩ := track_of_not_start (h.not_start hfits hcall hposition) true
    refine ⟨false, ?_, fun h => by cases h⟩
    rw [List.cons_append, List.foldlM_cons, Event.track, if_pos ⟨rfl, rfl⟩]
    refine (track_append htaken _).trans ?_
    rw [List.foldlM_cons, Event.track, if_pos ⟨rfl, rfl⟩]
    rfl
  · obtain ⟨taken, htaken, hkept⟩ := h.tracked other place
    refine ⟨taken, ?_, hkept⟩
    rw [List.cons_append, List.foldlM_cons, Event.track, if_neg hsame]
    refine (track_append htaken _).trans ?_
    rw [List.foldlM_cons, Event.track, if_neg hsame]
    rfl

end Accounted

namespace Machine

def Task.Inside (within : Nat → Prop) (machine : Machine σ) : Task σ → Prop
  | .evaluate scope _ => within scope
  | .force position _ => within position
  | .call _ _ scope => within scope
  | .serve _ => within machine.depth

variable {registry : Registry σ} {surroundings : Surroundings σ} {task : Task σ}
  {machine : Machine σ} {events : List Event} {outcome : Outcome σ}

/-- A run gives numbers to its own calls and leaves those of the others as they are. -/
theorem Runs.numbering (h : Runs registry surroundings task machine events outcome)
    (numbering : Numbering) :
    ∃ next, numbering.next ≤ next ∧
      events.foldl Numbering.after numbering = ⟨numbering.calls, next⟩ := by
  induction h generalizing numbering with
  | data | missing _ _ | kept _ _ | unknown _ | refused _ _ | done | raise =>
    exact ⟨numbering.next, Nat.le_refl _, rfl⟩
  | reference _ ih | callee _ ih | arity _ _ ih | depth _ ih | outline _ ih | invocationPath _ ih
  | bytesAt _ ih | exchange _ ih => exact ih numbering
  | value _ _ _ ih | fault _ _ _ ih =>
    obtain ⟨next, hle, hnext⟩ := ih numbering
    refine ⟨next, hle, ?_⟩
    rw [List.cons_append, List.foldl_cons, List.foldl_append, Numbering.after, hnext]
    rfl
  | program _ _ _ _ ih | definition _ _ _ _ ih =>
    obtain ⟨next, hle, hnext⟩ := ih numbering.enter
    refine ⟨next, Nat.le_of_succ_le hle, ?_⟩
    rw [List.cons_append, List.foldl_cons, List.foldl_append, Numbering.after, hnext,
      List.foldl_cons, List.foldl_nil, Numbering.after, Numbering.enter, List.dropLast_concat]
  | ask _ _ ihanswer ih =>
    obtain ⟨middle, hle, hmiddle⟩ := ihanswer numbering
    obtain ⟨next, hle', hnext⟩ := ih ⟨numbering.calls, middle⟩
    refine ⟨next, Nat.le_trans hle hle', ?_⟩
    rw [List.cons_append, List.foldl_cons, List.foldl_append, Numbering.after, hmiddle, hnext]

/-- The formula of an argument that is forced, of which the references lead further out. -/
theorem accounted_forced {within : Nat → Prop} {numbering : Numbering} {position index : Nat}
    {frame : Frame} {slot : Slot} (hordered : Stack.Ordered machine.frames)
    (hclosed : Stack.Closed machine.frames within) (hwithin : within position)
    (hframe : machine.frames[position]? = some frame)
    (hslot : frame.slots[index]? = some slot)
    (h : Runs registry surroundings (.evaluate frame.scope slot.formula) machine events outcome)
    (ih : ∀ inner, Stack.Closed machine.frames inner → inner frame.scope →
      Accounted inner numbering machine.frames (numbered numbering events) outcome.2.frames
        (events.foldl Numbering.after numbering).next) :
    ∃ inner, (∀ other, inner other → within other) ∧ ¬ inner position ∧
      Accounted inner numbering machine.frames (numbered numbering events) outcome.2.frames
        (events.foldl Numbering.after numbering).next := by
  rcases hordered.outward hframe hslot with hscope | hdata
  · refine ⟨_, fun _ hinner => hinner.1, fun hinner => ?_,
      ih _ (hclosed.below hordered frame.scope) ⟨hclosed.scope hwithin hframe, Nat.le_refl _⟩⟩
    exact absurd hinner.2 (Nat.not_le_of_lt hscope)
  · -- The arguments of the outermost frame are data, and nothing happens in them.
    obtain ⟨formula, value⟩ := slot
    cases formula with
    | data bytes =>
      cases h
      exact ⟨fun _ => False, fun _ => False.elim, id, .nil _ _ _ _⟩
    | argument _ | call _ _ => cases hdata

/-- A call and what happens in it. -/
theorem accounted_call {within : Nat → Prop} {numbering : Numbering} {index scope : Nat}
    {args : List Formula} {result : Result} {after : Machine σ}
    (hfits : numbering.Fits machine.frames)
    (h : Runs registry surroundings task (machine.push (Frame.ofArgs args scope)) events
      (result, after))
    (ih : Accounted (fun position => within position ∨ position = machine.frames.size)
      numbering.enter (machine.push (Frame.ofArgs args scope)).frames
      (numbered numbering.enter events) after.frames
      (events.foldl Numbering.after numbering.enter).next) :
    Accounted within numbering machine.frames
      (numbered numbering
        (.enter machine.frames.size index args scope :: events ++ [.leave machine.frames.size]))
      after.pop.frames
      ((Event.enter machine.frames.size index args scope :: events ++
        [Event.leave machine.frames.size]).foldl Numbering.after numbering).next := by
  have hsize : after.frames.size = machine.frames.size + 1 :=
    h.fills.size.trans (Array.size_push ..)
  rw [List.cons_append, numbered, numbered_append, List.foldl_cons, List.foldl_append]
  exact ih.enter (fun _ => id) hfits hsize index _ _ args

/-- Whatever is done, the arguments that it starts are accounted for. -/
theorem Runs.accounted (h : Runs registry surroundings task machine events outcome)
    {within : Nat → Prop} {numbering : Numbering} (hfits : numbering.Fits machine.frames)
    (hordered : Stack.Ordered machine.frames) (hclosed : Stack.Closed machine.frames within)
    (hinside : task.Inside within machine) :
    Accounted within numbering machine.frames (numbered numbering events) outcome.2.frames
      (events.foldl Numbering.after numbering).next := by
  -- Fewer positions can be reached from the formula of an argument, and one more in a call.
  induction h generalizing within numbering with
  | data | missing _ _ | kept _ _ | unknown _ | refused _ _ | done | raise => exact .nil _ _ _ _
  | reference _ ih | callee _ ih => exact ih hfits hordered hclosed hinside
  | @value position index machine after frame formula events value hframe hslot h ih =>
    obtain ⟨inner, hinner, hposition, haccount⟩ := accounted_forced hordered hclosed hinside hframe
      hslot h fun _ hclosed hscope => ih hfits hordered hclosed hscope
    obtain ⟨next, -, hnext⟩ := h.numbering numbering
    rw [hnext] at haccount
    rw [List.cons_append, numbered, numbered_append, List.foldl_cons, List.foldl_append,
      Numbering.after, hnext]
    exact haccount.keep hfits h.fills hinner hinside hposition
      (hfits.number (hclosed.lt_size hinside)) ⟨_, _, hframe, hslot⟩ value
  | @fault position index machine after frame formula events fault hframe hslot h ih =>
    obtain ⟨inner, hinner, hposition, haccount⟩ := accounted_forced hordered hclosed hinside hframe
      hslot h fun _ hclosed hscope => ih hfits hordered hclosed hscope
    obtain ⟨next, -, hnext⟩ := h.numbering numbering
    rw [hnext] at haccount
    rw [List.cons_append, numbered, numbered_append, List.foldl_cons, List.foldl_append,
      Numbering.after, hnext]
    exact haccount.abandon hfits hinner hinside hposition
      (hfits.number (hclosed.lt_size hinside)) ⟨_, _, hframe, hslot⟩
  | @program index scope args machine after function program events result _ _ _ h ih =>
    refine accounted_call hfits h (ih (hfits.enter _) ?_ (hclosed.push hinside args) (.inr ?_))
    · exact hordered.push (hclosed.lt_size hinside) args
    · rw [push, Machine.depth, Array.size_push, Nat.add_sub_cancel]
  | @definition index scope args machine after function formula bytecode events result _ _ _ h ih =>
    refine accounted_call hfits h (ih (hfits.enter _) ?_ (hclosed.push hinside args) (.inr rfl))
    exact hordered.push (hclosed.lt_size hinside) args
  | @ask index next machine middle events rest answer outcome hanswer h ihanswer ih =>
    obtain ⟨later, hle, hlater⟩ := hanswer.numbering numbering
    have hfills := hanswer.fills
    have hfirst := ihanswer hfits hordered hclosed hinside
    have hsize : middle.frames.size = machine.frames.size := hfills.size
    have hdepth : within middle.depth := by
      rw [Machine.depth, hsize]
      exact hinside
    have hsecond := ih (hfits.fills hfills hle) (hfills.ordered hordered) (hclosed.fills hfills)
      hdepth
    rw [hlater] at hfirst
    rw [List.cons_append, numbered, numbered_append, List.foldl_cons, List.foldl_append,
      Numbering.after, hlater]
    exact (hfirst.append hsecond hfits hfills h.fills).ask _ _
  | arity _ _ ih | depth _ ih | outline _ ih | invocationPath _ ih | bytesAt _ ih | exchange _ ih =>
    exact ih hfits hordered hclosed hinside

end Machine

/-- An argument of a call is started again only if a fault came out of it. -/
theorem Registry.abandon_mem_of_log {registry : Registry σ} {surroundings : Surroundings σ}
    {state : σ} {formula : Formula} {args : List Bytes} {call index : Nat}
    {before between rest : List Event}
    (h : registry.log surroundings state formula args =
      before ++ .start call index :: (between ++ .start call index :: rest)) :
    .abandon call index ∈ between := by
  have hclosed : Stack.Closed (Machine.start state args).frames (· = 0) := by
    refine ⟨fun _ hzero => hzero ▸ Nat.zero_lt_one, ?_⟩
    rintro _ frame rfl hframe
    cases hframe
    rfl
  have haccount := (registry.runs surroundings state formula args).accounted
    (Numbering.outermost_fits args) (Stack.ordered_outermost args) hclosed rfl
  obtain ⟨taken, htaken, -⟩ := haccount.tracked call index
  rw [← log, h] at htaken
  exact abandon_mem_of_track htaken

end ByteFormula
