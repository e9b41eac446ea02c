import ByteFormula.Proofs.BaseRegistry
import ByteFormula.Proofs.Restarts

/-! Arguments by need. The formula of an argument is started at most once if host functions give up
when a fault comes out of an argument, and it is started only if somebody asks for it. -/
namespace ByteFormula

variable {σ α β : Type}

namespace Host

def Fails : Host σ α → Prop
  | .done _ => False
  | .raise _ => True
  | .argument _ _ => False
  | .arity next => ∀ count, (next count).Fails
  | .depth next => ∀ depth, (next depth).Fails
  | .outline next => ∀ outline, (next outline).Fails
  | .invocationPath next => ∀ path, (next path).Fails
  | .bytesAt _ next => ∀ answer, (next answer).Fails
  | .exchange _ next => ∀ state, (next state).Fails

/-- Programs that give up when a fault comes out of an argument. They may ask for their arguments
any number of times and in any order. -/
def Heeds : Host σ α → Prop
  | .done _ => True
  | .raise _ => True
  | .argument _ next => (∀ fault, (next (.error fault)).Fails) ∧ ∀ value, (next (.ok value)).Heeds
  | .arity next => ∀ count, (next count).Heeds
  | .depth next => ∀ depth, (next depth).Heeds
  | .outline next => ∀ outline, (next outline).Heeds
  | .invocationPath next => ∀ path, (next path).Heeds
  | .bytesAt _ next => ∀ answer, (next answer).Heeds
  | .exchange _ next => ∀ state, (next state).Heeds

theorem Fails.bind {program : Host σ α} (h : program.Fails) (next : α → Host σ β) :
    (program >>= next).Fails := by
  induction program with
  | done value => exact h.elim
  | raise fault => trivial
  | argument index rest ih => exact h.elim
  | arity rest ih | depth rest ih | outline rest ih | invocationPath rest ih | bytesAt path rest ih
  | exchange change rest ih => exact fun answer => ih answer (h answer)

theorem Heeds.bind {program : Host σ α} {next : α → Host σ β} (h : program.Heeds)
    (hnext : ∀ value, (next value).Heeds) : (program >>= next).Heeds := by
  induction program with
  | done value => exact hnext value
  | raise fault => trivial
  | argument index rest ih => exact ⟨fun fault => (h.1 fault).bind next, fun value => ih _ (h.2 value)⟩
  | arity rest ih | depth rest ih | outline rest ih | invocationPath rest ih | bytesAt path rest ih
  | exchange change rest ih => exact fun answer => ih answer (h answer)

private theorem Basic.heeds {count : Nat} {program : Host σ α} (h : Basic count program) :
    program.Heeds := by
  induction h with
  | done value => trivial
  | fail h => trivial
  | arg h => exact ⟨fun _ => trivial, fun _ => trivial⟩
  | arity _ ih => exact ih
  | invocationPath _ ih => exact ih
  | bytesAt path =>
    intro answer
    cases answer <;> trivial
  | bind _ _ ih ihnext => exact ih.bind ihnext

end Host

namespace Event

def started? : Event → Option (Nat × Nat)
  | .start call index => some (call, index)
  | _ => none

def isAbandon : Event → Bool
  | .abandon _ _ => true
  | _ => false

end Event

/-- The arguments whose formulas are started, each as the number of its call and its index. -/
def started (log : List Event) : List (Nat × Nat) :=
  log.filterMap Event.started?

def Stops (events : List Event) : Prop :=
  ∃ before rest, events = before ++ rest ∧ (∀ event ∈ before, event.isAbandon = false) ∧
    ∀ event ∈ rest, event.started? = none

section

variable {numbering : Numbering} {events rest : List Event}

/-- Where nothing is abandoned there is nothing to stop for. -/
theorem Stops.of_smooth (h : ∀ event ∈ events, event.isAbandon = false) : Stops events :=
  ⟨events, [], (List.append_nil events).symm, h, fun _ hmem => (List.not_mem_nil hmem).elim⟩

theorem Stops.append (h : ∀ event ∈ events, event.isAbandon = false) (hrest : Stops rest) :
    Stops (events ++ rest) := by
  obtain ⟨before, after, rfl, hbefore, hafter⟩ := hrest
  refine ⟨events ++ before, after, (List.append_assoc ..).symm, ?_, hafter⟩
  exact List.forall_mem_append.mpr ⟨h, hbefore⟩

/-- An event before that abandons nothing and one after that starts nothing make no difference. -/
theorem Stops.between (h : Stops events) {first last : Event} (hfirst : first.isAbandon = false)
    (hlast : last.started? = none) : Stops (first :: events ++ [last]) := by
  obtain ⟨before, rest, rfl, hbefore, hrest⟩ := h
  refine ⟨first :: before, rest ++ [last], ?_, List.forall_mem_cons.mpr ⟨hfirst, hbefore⟩, ?_⟩
  · rw [List.cons_append, List.cons_append, List.append_assoc]
  · exact List.forall_mem_append.mpr ⟨hrest, List.forall_mem_singleton.mpr hlast⟩

private theorem smooth_between (h : ∀ event ∈ events, event.isAbandon = false) {first last : Event}
    (hfirst : first.isAbandon = false) (hlast : last.isAbandon = false) :
    ∀ event ∈ first :: events ++ [last], event.isAbandon = false :=
  List.forall_mem_append.mpr
    ⟨List.forall_mem_cons.mpr ⟨hfirst, h⟩, List.forall_mem_singleton.mpr hlast⟩

private theorem isAbandon_numbered (h : ∀ event ∈ events, event.isAbandon = false) :
    ∀ event ∈ numbered numbering events, event.isAbandon = false := by
  induction events generalizing numbering with
  | nil => exact h
  | cons event events ih =>
    rw [List.forall_mem_cons] at h
    refine List.forall_mem_cons.mpr ⟨?_, ih h.2⟩
    cases event with
    | abandon call index => cases h.1
    | _ => rfl

private theorem started?_numbered (h : ∀ event ∈ events, event.started? = none) :
    ∀ event ∈ numbered numbering events, event.started? = none := by
  induction events generalizing numbering with
  | nil => exact h
  | cons event events ih =>
    rw [List.forall_mem_cons] at h
    refine List.forall_mem_cons.mpr ⟨?_, ih h.2⟩
    cases event with
    | start call index => cases h.1
    | _ => rfl

theorem Stops.numbered (h : Stops events) (numbering : Numbering) :
    Stops (numbered numbering events) := by
  obtain ⟨before, rest, rfl, hbefore, hrest⟩ := h
  exact ⟨_, _, numbered_append .., isAbandon_numbered hbefore, started?_numbered hrest⟩

private theorem mem_started {log : List Event} {call index : Nat} :
    (call, index) ∈ started log ↔ .start call index ∈ log := by
  rw [started, List.mem_filterMap]
  constructor
  · rintro ⟨event, hmem, hevent⟩
    cases event with
    | start other place =>
      cases hevent
      exact hmem
    | _ => cases hevent
  · exact fun hmem => ⟨_, hmem, rfl⟩

/-- A log in which nothing is abandoned, and nothing is started twice unless it was abandoned,
starts everything at most once. -/
theorem nodup_started {log : List Event} (h : ∀ event ∈ log, event.isAbandon = false)
    (hrestart : ∀ before call index between rest,
      log = before ++ .start call index :: (between ++ .start call index :: rest) →
      .abandon call index ∈ between) : (started log).Nodup := by
  induction log with
  | nil => exact List.nodup_nil
  | cons event log ih =>
    rw [List.forall_mem_cons] at h
    have hrest : (started log).Nodup := by
      refine ih h.2 fun before call index between rest hlog => ?_
      exact hrestart (event :: before) call index between rest (by rw [hlog]; rfl)
    cases event with
    | start call index =>
      refine List.nodup_cons.mpr ⟨fun hmem => ?_, hrest⟩
      obtain ⟨between, rest, rfl⟩ := List.append_of_mem (mem_started.mp hmem)
      have habandon := hrestart [] call index between rest rfl
      cases h.2 _ (List.mem_append_left _ habandon)
    | _ => exact hrest

/-- The part of a log before the first fault is all that matters. -/
theorem Stops.nodup_started {log : List Event} (h : Stops log)
    (hrestart : ∀ before call index between rest,
      log = before ++ .start call index :: (between ++ .start call index :: rest) →
      .abandon call index ∈ between) : (started log).Nodup := by
  obtain ⟨first, last, rfl, hfirst, hlast⟩ := h
  have hnone : started last = [] := List.filterMap_eq_nil_iff.mpr hlast
  rw [started, List.filterMap_append, ← started, ← started, hnone, List.append_nil]
  refine ByteFormula.nodup_started hfirst fun before call index between rest heq => ?_
  apply hrestart before call index between (rest ++ last)
  rw [heq]
  simp only [List.append_assoc, List.cons_append]

end

namespace Machine

section

variable {registry : Registry σ} {surroundings : Surroundings σ} {task : Task σ}
  {machine : Machine σ} {events : List Event} {outcome : Outcome σ}

theorem Runs.fails {program : Host σ Bytes} (hprogram : program.Fails)
    (h : Runs registry surroundings (.serve program) machine events outcome) :
    events = [] ∧ ∀ value, outcome.1 ≠ .ok value := by
  induction program generalizing machine with
  | done value => exact hprogram.elim
  | raise fault =>
    cases h
    exact ⟨rfl, fun _ h => by cases h⟩
  | argument index next ih => exact hprogram.elim
  | arity next ih =>
    cases h with
    | arity _ h => exact ih _ (hprogram _) h
  | depth next ih =>
    cases h with
    | depth h => exact ih _ (hprogram _) h
  | outline next ih =>
    cases h with
    | outline h => exact ih _ (hprogram _) h
  | invocationPath next ih =>
    cases h with
    | invocationPath h => exact ih _ (hprogram _) h
  | bytesAt path next ih =>
    cases h with
    | bytesAt h => exact ih _ (hprogram _) h
  | exchange change next ih =>
    cases h with
    | exchange h => exact ih _ (hprogram _) h

private theorem ok_of_named {result : Result} {symbol : String} {value : Bytes}
    (h : result.named symbol = .ok value) : result = .ok value := by
  cases result with
  | ok found => exact h
  | error fault => cases h

/-- Where host functions give up on faults, a run starts nothing after a fault, and has none on the
way to a value. -/
theorem Runs.stops (hhosts : registry.Hosts Host.Heeds)
    (h : Runs registry surroundings task machine events outcome)
    (htask : task.Serves Host.Heeds) :
    Stops events ∧ ∀ value, outcome.1 = .ok value → ∀ event ∈ events, event.isAbandon = false := by
  induction h with
  | data | missing _ _ | kept _ _ | unknown _ | refused _ _ | done | raise =>
    have hsmooth : ∀ event ∈ ([] : List Event), event.isAbandon = false :=
      fun _ hmem => (List.not_mem_nil hmem).elim
    exact ⟨.of_smooth hsmooth, fun _ _ => hsmooth⟩
  | reference _ ih | callee _ ih => exact ih trivial
  | value _ _ _ ih =>
    have hsmooth := (ih trivial).2 _ rfl
    exact ⟨.of_smooth (smooth_between hsmooth rfl rfl), fun _ _ => smooth_between hsmooth rfl rfl⟩
  | fault _ _ _ ih => exact ⟨(ih trivial).1.between rfl rfl, fun _ h => by cases h⟩
  | program hfunction _ hprogram _ ih =>
    obtain ⟨hstops, hsmooth⟩ := ih (hhosts hfunction hprogram)
    exact ⟨hstops.between rfl rfl,
      fun value hvalue => smooth_between (hsmooth value (ok_of_named hvalue)) rfl rfl⟩
  | definition _ _ _ _ ih =>
    obtain ⟨hstops, hsmooth⟩ := ih trivial
    exact ⟨hstops.between rfl rfl,
      fun value hvalue => smooth_between (hsmooth value (ok_of_named hvalue)) rfl rfl⟩
  | @ask index _ machine _ events _ answer _ _ h ihanswer ih =>
    obtain ⟨hstops, hsmooth⟩ := ihanswer trivial
    cases answer with
    | ok value =>
      have hfirst : ∀ event ∈ .ask machine.depth index :: events, event.isAbandon = false :=
        List.forall_mem_cons.mpr ⟨rfl, hsmooth value rfl⟩
      obtain ⟨hrest, hlast⟩ := ih (htask.2 value)
      exact ⟨.append hfirst hrest,
        fun last hvalue => List.forall_mem_append.mpr ⟨hfirst, hlast last hvalue⟩⟩
    | error fault =>
      -- The program gives up, and nothing else happens.
      obtain ⟨rfl, hnot⟩ := Runs.fails (htask.1 fault) h
      rw [List.append_nil]
      exact ⟨.append (List.forall_mem_singleton.mpr rfl) hstops,
        fun value hvalue => absurd hvalue (hnot value)⟩
  | arity _ _ ih | depth _ ih | outline _ ih | invocationPath _ ih | bytesAt _ ih | exchange _ ih =>
    exact ih (htask _)

end
end Machine

/-- Who wants the value of an argument of a call, as far as the history shows. Either the program of
the function asks for it, or the body of the function is a reference to it, or a call in the body has
a reference to it for an argument, which is wanted in turn. -/
inductive Wanted (registry : Registry σ) (formula : Formula) (history : List Event) :
    Nat → Nat → Prop where
  | whole {index : Nat} (h : formula = .argument index) : Wanted registry formula history 0 index
  | program {call index : Nat} (h : .ask call index ∈ history) :
      Wanted registry formula history call index
  | body {call number index scope : Nat} {args : List Formula} {function : Function σ}
      {bytecode : Bytes} (henter : .enter call number args scope ∈ history)
      (hfunction : registry.function? number = some function)
      (hbody : function.body = .defined (.argument index) bytecode) :
      Wanted registry formula history call index
  | nested {call inner function place index : Nat} {args : List Formula}
      (henter : .enter inner function args call ∈ history)
      (hplace : args[place]? = some (.argument index))
      (h : Wanted registry formula history inner place) :
      Wanted registry formula history call index

def Justified (registry : Registry σ) (formula : Formula) (history : List Event) :
    List Event → Prop
  | [] => True
  | event :: rest =>
    (∀ call index, event = .start call index → Wanted registry formula history call index) ∧
      Justified registry formula (history ++ [event]) rest

section

variable {registry : Registry σ} {formula : Formula} {history later log rest : List Event}
  {call index : Nat}

theorem Wanted.mono (h : Wanted registry formula history call index)
    (hsubset : ∀ event ∈ history, event ∈ later) : Wanted registry formula later call index := by
  induction h with
  | whole h => exact .whole h
  | program h => exact .program (hsubset _ h)
  | body henter hfunction hbody => exact .body (hsubset _ henter) hfunction hbody
  | nested henter hplace _ ih => exact .nested (hsubset _ henter) hplace ih

private theorem justified_append : Justified registry formula history (log ++ rest) ↔
    Justified registry formula history log ∧ Justified registry formula (history ++ log) rest := by
  induction log generalizing history with
  | nil => simp [Justified]
  | cons event log ih => simp [Justified, ih, and_assoc, List.append_assoc]

private theorem justified_cons {event : Event} (hevent : event.started? = none)
    (h : Justified registry formula (history ++ [event]) log) :
    Justified registry formula history (event :: log) := by
  refine ⟨fun call index heq => ?_, h⟩
  rw [heq] at hevent
  cases hevent

theorem Justified.concat {event : Event} (hevent : event.started? = none)
    (h : Justified registry formula history log) :
    Justified registry formula history (log ++ [event]) :=
  justified_append.mpr ⟨h, justified_cons hevent trivial⟩

private theorem Justified.wanted
    (h : Justified registry formula history (log ++ .start call index :: rest)) :
    Wanted registry formula (history ++ log) call index :=
  (justified_append.mp h).2.1 call index rfl

end

def Recalled (history : List Event) (numbering : Numbering) (frames : Stack) : Prop :=
  ∀ ⦃position frame⦄, frames[position]? = some frame → 0 < position →
    ∃ function args,
      .enter (numbering.number position) function args (numbering.number frame.scope) ∈ history ∧
      ∀ ⦃index : Nat⦄ ⦃slot : Slot⦄, frame.slots[index]? = some slot →
        args[index]? = some slot.formula

namespace Recalled

variable {history later : List Event} {numbering : Numbering} {frames after : Stack}

theorem mono (h : Recalled history numbering frames)
    (hsubset : ∀ event ∈ history, event ∈ later) : Recalled later numbering frames := by
  intro position frame hframe hpos
  obtain ⟨function, args, henter, hargs⟩ := h hframe hpos
  exact ⟨function, args, hsubset _ henter, hargs⟩

theorem fills (h : Recalled history numbering frames) (hfills : Stack.Fills frames after)
    (next : Nat) : Recalled history ⟨numbering.calls, next⟩ after := by
  intro position filled hfilled hpos
  obtain ⟨frame, hframe, hsame⟩ := hfills.origin hfilled
  obtain ⟨function, args, henter, hargs⟩ := h hframe hpos
  rw [hsame.scope]
  refine ⟨function, args, henter, fun index slot hslot => ?_⟩
  obtain ⟨value, hold, -⟩ := hsame.origin hslot
  have hformula := hargs hold
  exact hformula

theorem enter (h : Recalled history numbering frames) (hfits : numbering.Fits frames)
    (hordered : Stack.Ordered frames) {scope : Nat} (hscope : scope < frames.size)
    (function : Nat) (args : List Formula) :
    Recalled (history ++ [.enter numbering.next function args (numbering.number scope)])
      numbering.enter (frames.push (.ofArgs args scope)) := by
  intro position frame hframe hpos
  rw [Array.getElem?_push] at hframe
  split at hframe
  · subst_vars
    cases hframe
    rw [hfits.number_enter_size, Frame.ofArgs, hfits.number_enter hscope]
    refine ⟨function, args, List.mem_append_right _ (List.mem_singleton_self _), ?_⟩
    intro index slot hslot
    rw [List.getElem?_toArray, List.getElem?_map, Option.map_eq_some_iff] at hslot
    obtain ⟨formula, hformula, rfl⟩ := hslot
    exact hformula
  · obtain ⟨found, others, henter, hargs⟩ := h hframe hpos
    rw [hfits.number_enter (Array.getElem?_eq_some_iff.mp hframe).1,
      hfits.number_enter (hordered.scope_lt_size hframe)]
    exact ⟨found, others, List.mem_append_left _ henter, hargs⟩

end Recalled

namespace Machine

/-- If an argument is to be forced, it is wanted. -/
def Task.Wanted (registry : Registry σ) (formula : Formula) (history : List Event)
    (numbering : Numbering) : Task σ → Prop
  | .evaluate scope (.argument index) =>
    ByteFormula.Wanted registry formula history (numbering.number scope) index
  | .force position index =>
    ByteFormula.Wanted registry formula history (numbering.number position) index
  | _ => True

variable {registry : Registry σ} {surroundings : Surroundings σ} {task : Task σ}
  {machine : Machine σ} {events : List Event} {outcome : Outcome σ} {formula : Formula}
  {numbering : Numbering} {history : List Event}

/-- If an argument is wanted and its formula is a reference, what that leads to is wanted. -/
theorem wanted_forced {position index : Nat} {frame : Frame} {slot : Slot}
    (hordered : Stack.Ordered machine.frames)
    (hrecalled : Recalled history numbering machine.frames)
    (hframe : machine.frames[position]? = some frame) (hslot : frame.slots[index]? = some slot)
    (hwanted : Wanted registry formula history (numbering.number position) index) :
    (Task.evaluate frame.scope slot.formula : Task σ).Wanted registry formula history numbering := by
  cases hformula : slot.formula with
  | data bytes => trivial
  | call function args => trivial
  | argument place =>
    rcases hordered.outward hframe hslot with hscope | hdata
    · obtain ⟨function, args, henter, hargs⟩ := hrecalled hframe (Nat.zero_lt_of_lt hscope)
      exact .nested henter (hformula ▸ hargs hslot) hwanted
    · rw [hformula] at hdata
      cases hdata

theorem Task.Wanted.mono {later : List Event}
    (h : task.Wanted registry formula history numbering)
    (hsubset : ∀ event ∈ history, event ∈ later) :
    task.Wanted registry formula later numbering := by
  cases task with
  | evaluate scope other =>
    cases other with
    | argument index => exact ByteFormula.Wanted.mono h hsubset
    | data _ | call _ _ => trivial
  | force position index => exact ByteFormula.Wanted.mono h hsubset
  | call _ _ _ | serve _ => trivial

private theorem Runs.justified (h : Runs registry surroundings task machine events outcome)
    (hfits : numbering.Fits machine.frames) (hordered : Stack.Ordered machine.frames)
    (hplaced : task.Placed machine.frames)
    (hrecalled : Recalled history numbering machine.frames)
    (hwanted : task.Wanted registry formula history numbering) :
    Justified registry formula history (numbered numbering events) := by
  induction h generalizing numbering history with
  | data | missing _ _ | kept _ _ | unknown _ | refused _ _ | done | raise => trivial
  | reference _ ih => exact ih hfits hordered trivial hrecalled hwanted
  | callee _ ih => exact ih hfits hordered hplaced hrecalled trivial
  | value hframe hslot _ ih | fault hframe hslot _ ih =>
    rw [List.cons_append, numbered, numbered_append]
    refine ⟨fun call index heq => ?_, Justified.concat rfl (ih hfits hordered ?_ ?_ ?_)⟩
    · cases heq
      exact hwanted
    · exact hordered.scope_lt_size hframe
    · exact hrecalled.mono fun _ => List.mem_append_left _
    · exact (wanted_forced hordered hrecalled hframe hslot hwanted).mono
        fun _ => List.mem_append_left _
  | program _ _ _ _ ih =>
    rw [List.cons_append, numbered, numbered_append]
    refine justified_cons rfl (.concat rfl ?_)
    exact ih (hfits.enter _) (hordered.push hplaced _) trivial
      (hrecalled.enter hfits hordered hplaced _ _) trivial
  | @definition index scope args machine _ _ formula _ _ _ hfunction _ hbody _ ih =>
    rw [List.cons_append, numbered, numbered_append]
    refine justified_cons rfl (.concat rfl ?_)
    refine ih (hfits.enter _) (hordered.push hplaced _) (Task.placed_body _ _ _)
      (hrecalled.enter hfits hordered hplaced _ _) ?_
    cases formula with
    | argument place =>
      rw [Task.Wanted, Numbering.after, hfits.number_enter_size]
      exact .body (List.mem_append_right _ (List.mem_singleton_self _)) hfunction hbody
    | data _ | call _ _ => trivial
  | ask hanswer h ihanswer ih =>
    obtain ⟨later, hle, hlater⟩ := hanswer.numbering numbering
    rw [List.cons_append, numbered, numbered_append, Numbering.after, hlater]
    refine justified_cons rfl (justified_append.mpr ⟨?_, ?_⟩)
    · exact ihanswer hfits hordered trivial (hrecalled.mono fun _ => List.mem_append_left _)
        (.program (List.mem_append_right _ (List.mem_singleton_self _)))
    · refine ih (hfits.fills hanswer.fills hle) (hanswer.fills.ordered hordered) trivial ?_ trivial
      exact (hrecalled.fills hanswer.fills later).mono
        fun _ hmem => List.mem_append_left _ (List.mem_append_left _ hmem)
  | arity _ _ ih | depth _ ih | outline _ ih | invocationPath _ ih | bytesAt _ ih | exchange _ ih =>
    exact ih hfits hordered trivial hrecalled trivial

end Machine

namespace Registry

private theorem wanted_of_log {registry : Registry σ} {surroundings : Surroundings σ} {state : σ}
    {formula : Formula} {args : List Bytes} {call index : Nat} {before rest : List Event}
    (h : registry.log surroundings state formula args = before ++ .start call index :: rest) :
    Wanted registry formula before call index := by
  have hordered : Stack.Ordered (Machine.start state args).frames := Stack.ordered_outermost args
  have hrecalled : Recalled [] .outermost (Machine.start state args).frames := by
    intro position frame hframe hpos
    have hlt := (Array.getElem?_eq_some_iff.mp hframe).1
    exact absurd (Nat.lt_one_iff.mp hlt) (Nat.ne_of_gt hpos)
  have hwanted : (Machine.Task.evaluate 0 formula : Machine.Task σ).Wanted registry formula []
      .outermost := by
    cases formula with
    | argument index => exact .whole rfl
    | data _ | call _ _ => trivial
  have hjustified := (registry.runs surroundings state formula args).justified
    (Numbering.outermost_fits args) hordered Nat.zero_lt_one hrecalled hwanted
  rw [← log, h] at hjustified
  exact hjustified.wanted

/-- What happens in an evaluation, by the rules and with a number of its own for each call. The
formula of an argument is started again only after a fault came out of it, so never while it is
running and never after it had a value. Where host functions give up on faults, whatever else they do,
it is started once at most, and the embedded ones do give up. And it is started only if somebody asks
for it. -/
theorem arguments_started_once_on_demand (registry : Registry σ) (surroundings : Surroundings σ)
    (state : σ) (formula : Formula) (args : List Bytes) :
    Machine.Runs registry surroundings (.evaluate 0 formula) (.start state args)
      (registry.events surroundings state formula args)
      (registry.outcome surroundings state formula args) ∧
    (∀ before call index between rest,
      registry.log surroundings state formula args =
        before ++ .start call index :: (between ++ .start call index :: rest) →
      .abandon call index ∈ between) ∧
    (registry.Hosts Host.Heeds →
      (started (registry.log surroundings state formula args)).Nodup) ∧
    (∀ entry ∈ (Embedded.shortTable : List (String × Nat × Host σ Bytes)), entry.2.2.Heeds) ∧
    (∀ entry ∈ (Embedded.longTable : List (String × Arity × Host σ Bytes)), entry.2.2.Heeds) ∧
    ∀ before call index rest,
      registry.log surroundings state formula args = before ++ .start call index :: rest →
      Wanted registry formula before call index := by
  have hruns := registry.runs surroundings state formula args
  refine ⟨hruns, fun _ _ _ _ _ => abandon_mem_of_log, fun hhosts => ?_, fun entry hentry => ?_,
    fun entry hentry => ?_, fun _ _ _ _ => wanted_of_log⟩
  · have hstops := (hruns.stops hhosts trivial).1.numbered .outermost
    exact hstops.nodup_started fun _ _ _ _ _ => abandon_mem_of_log
  · exact (Embedded.basic_shortTable entry hentry).heeds
  · obtain ⟨given, hgiven⟩ := exists_accepts entry.2.1
    exact (Embedded.basic_longTable entry hentry given hgiven).heeds

/-- A registry with a host function that counts its calls, one that asks for the first of its
arguments twice, and a definition that passes on its argument to both of these. -/
def counting : Registry Nat :=
  ⟨#[⟨"tick", 16, .fixed 0, .short (.exchange (· + 1) fun old => .done [UInt8.ofNat old]), none⟩,
     ⟨"again", 17, .fixed 2, .short (do
        let _ ← Host.arg 0
        let _ ← Host.arg 1
        Host.arg 0), none⟩,
     ⟨"share", 256, .fixed 1, .defined (.call 1 [.argument 0, .argument 0]) [0x22, 0, 0],
       some "again($0,$0)"⟩],
   ⟨[("share", 2), ("again", 1), ("tick", 0)]⟩, ⟨[(256, 2), (17, 1), (16, 0)]⟩, 4⟩

/-- The argument of the definition is asked for three times, through two references, and is
evaluated once. -/
theorem arguments_started_once_on_demand_share :
    counting.Hosts Host.Heeds ∧
    (counting.evaluate .none 0 (.call 2 [.call 0 []]) []).2 = 1 ∧
    started (counting.log .none 0 (.call 2 [.call 0 []]) []) = [(2, 0), (1, 0), (2, 1)] ∧
    (started (counting.log .none 0 (.call 2 [.call 0 []]) [])).Nodup := by
  have hhosts : counting.Hosts Host.Heeds := by
    intro index function program hfunction hprogram
    match index with
    | 0 =>
      cases hfunction
      cases hprogram
      exact fun _ => trivial
    | 1 =>
      cases hfunction
      cases hprogram
      exact ⟨fun _ => trivial, fun _ => ⟨fun _ => trivial, fun _ => ⟨fun _ => trivial,
        fun _ => trivial⟩⟩⟩
    | 2 =>
      cases hfunction
      cases hprogram
    | index + 3 => cases hfunction
  exact ⟨hhosts, rfl, rfl,
    (arguments_started_once_on_demand counting .none 0 (.call 2 [.call 0 []]) []).2.2.1 hhosts⟩

/-- A registry with a host function that counts its calls and fails, and one that asks for its
argument again, whatever came out of it. -/
def stubborn : Registry Nat :=
  ⟨#[⟨"trip", 16, .fixed 0,
       .short (.exchange (· + 1) fun _ => .raise (Fault.ofKind (.failed "trip"))), none⟩,
     ⟨"retry", 17, .fixed 1, .short (.argument 0 fun _ => Host.arg 0), none⟩],
   ⟨[("retry", 1), ("trip", 0)]⟩, ⟨[(17, 1), (16, 0)]⟩, 4⟩

/-- Nothing is kept of an argument that a fault came out of. A host function that asks for it again
has its formula started again in the same call, and the function in it is called a second time. -/
theorem argument_started_again_after_fault :
    Built stubborn ∧
    started (stubborn.log .none 0 (.call 1 [.call 0 []]) []) = [(1, 0), (1, 0)] ∧
    ¬ (started (stubborn.log .none 0 (.call 1 [.call 0 []]) [])).Nodup ∧
    (stubborn.evaluate .none 0 (.call 1 [.call 0 []]) []).2 = 2 := by
  have hbound : Built (empty.setMaxCallDepth 4 : Registry Nat) := .setMaxCallDepth .empty 4
  have htrip := Built.embedShort hbound (show embedShort _ "trip" 0
    (.exchange (· + 1) fun _ => .raise (Fault.ofKind (.failed "trip"))) = (.ok 0, _) from rfl)
  have hretry := Built.embedShort htrip (show embedShort _ "retry" 1
    (.argument 0 fun _ => Host.arg 0) = (.ok 1, stubborn) from rfl)
  have hstarted : started (stubborn.log .none 0 (.call 1 [.call 0 []]) []) = [(1, 0), (1, 0)] := rfl
  refine ⟨hretry, hstarted, ?_, rfl⟩
  rw [hstarted]
  decide

end Registry
end ByteFormula
