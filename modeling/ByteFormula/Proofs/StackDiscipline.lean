import ByteFormula.Proofs.Executions

/-! The stack during an evaluation. Every evaluation ends. At each moment of it the stack is within
the bound on nested calls and its references lead outwards, and a call leaves the frames below it in
place. -/
namespace ByteFormula

variable {σ : Type}

def Event.apply (frames : Stack) : Event → Stack
  | .enter _ _ args scope => frames.push (Frame.ofArgs args scope)
  | .leave _ => frames.pop
  | .keep call index value => (Machine.store ⟨frames, ()⟩ call index value).frames
  | .ask _ _ | .start _ _ | .abandon _ _ => frames

def Stack.moments (frames : Stack) : List Event → List Stack
  | [] => [frames]
  | event :: events => frames :: Stack.moments (event.apply frames) events

/-- The stack is within a bound on nested calls, and its references lead outwards. -/
structure Stack.Disciplined (maxCallDepth : Nat) (frames : Stack) : Prop where
  size : frames.size ≤ maxCallDepth + 1
  ordered : Stack.Ordered frames

/-- A call returns in what follows. Its frame stays on the stack until then, and the frames below it
are left in place, with no change but values that came in. -/
def Event.Returns (frames : Stack) (rest : List Event) : Event → Prop
  | .enter call _ args scope =>
    ∃ inner later, rest = inner ++ .leave call :: later ∧
      (∀ stack ∈ Stack.moments (frames.push (.ofArgs args scope)) inner,
        frames.size < stack.size) ∧
      Stack.Fills frames (inner.foldl Event.apply (frames.push (.ofArgs args scope))).pop
  | _ => True

/-- All calls that are entered return. -/
def Stack.Balanced (frames : Stack) : List Event → Prop
  | [] => True
  | event :: rest => event.Returns frames rest ∧ Stack.Balanced (event.apply frames) rest

namespace Stack

variable {frames after : Stack} {event : Event} {events rest : List Event}
  {condition : Stack → Prop}

private theorem forall_moments_cons :
    (∀ stack ∈ Stack.moments frames (event :: events), condition stack) ↔
      condition frames ∧ ∀ stack ∈ Stack.moments (event.apply frames) events, condition stack :=
  List.forall_mem_cons

/-- What holds at all moments of two stretches, the second of which starts where the first ends,
holds at all moments of the whole. -/
theorem forall_moments_append (hend : events.foldl Event.apply frames = after)
    (h : ∀ stack ∈ Stack.moments frames events, condition stack)
    (hrest : ∀ stack ∈ Stack.moments after rest, condition stack) :
    ∀ stack ∈ Stack.moments frames (events ++ rest), condition stack := by
  induction events generalizing frames with
  | nil =>
    subst hend
    exact hrest
  | cons event events ih =>
    rw [forall_moments_cons] at h
    exact forall_moments_cons.mpr ⟨h.1, ih hend h.2⟩

theorem Balanced.append (h : Balanced frames events)
    (hrest : Balanced (events.foldl Event.apply frames) rest) :
    Balanced frames (events ++ rest) := by
  induction events generalizing frames with
  | nil => exact hrest
  | cons event events ih =>
    refine ⟨?_, ih h.2 hrest⟩
    cases event with
    | enter call function args scope =>
      obtain ⟨inner, later, rfl, habove, hfills⟩ := h.1
      exact ⟨inner, later ++ rest, List.append_assoc .., habove, hfills⟩
    | _ => trivial

end Stack

namespace Machine

section

variable {registry : Registry σ} {surroundings : Surroundings σ} {task : Task σ}
  {machine : Machine σ} {events : List Event} {outcome : Outcome σ}

/-- The events account for all that becomes of the stack. -/
theorem Runs.foldl_apply (h : Runs registry surroundings task machine events outcome) :
    events.foldl Event.apply machine.frames = outcome.2.frames := by
  induction h with
  | data => rfl
  | reference _ ih => exact ih
  | callee _ ih => exact ih
  | missing _ _ => rfl
  | kept _ _ => rfl
  | value _ _ _ ih =>
    rw [List.cons_append, List.foldl_cons, List.foldl_append]
    exact congrArg (fun frames => Event.apply frames (.keep ..)) ih
  | fault _ _ _ ih =>
    rw [List.cons_append, List.foldl_cons, List.foldl_append]
    exact ih
  | unknown _ => rfl
  | refused _ _ => rfl
  | program _ _ _ _ ih =>
    rw [List.cons_append, List.foldl_cons, List.foldl_append]
    exact congrArg Array.pop ih
  | definition _ _ _ _ ih =>
    rw [List.cons_append, List.foldl_cons, List.foldl_append]
    exact congrArg Array.pop ih
  | done => rfl
  | raise => rfl
  | ask _ _ ihanswer ih =>
    rw [List.cons_append, List.foldl_cons, List.foldl_append]
    exact (congrArg (fun frames => List.foldl Event.apply frames _) ihanswer).trans ih
  | arity _ _ ih => exact ih
  | depth _ ih => exact ih
  | outline _ ih => exact ih
  | invocationPath _ ih => exact ih
  | bytesAt _ ih => exact ih
  | exchange _ ih => exact ih

/-- Conditions on the stack that hold of it at all moments if they hold at first: those that do not
mind values that come in and further calls within the bound. -/
structure Lasting (maxCallDepth : Nat) (condition : Stack → Prop) : Prop where
  fills : ∀ ⦃before after : Stack⦄, condition before → Stack.Fills before after → condition after
  push : ∀ ⦃frames : Stack⦄ ⦃args : List Formula⦄ ⦃scope : Nat⦄, condition frames →
    scope < frames.size → frames.size ≤ maxCallDepth → condition (frames.push (.ofArgs args scope))

theorem Lasting.call {condition : Stack → Prop}
    (hlasting : Lasting registry.maxCallDepth condition) {args : List Formula} {scope index : Nat}
    {result : Result} {after : Machine σ} (hscope : scope < machine.frames.size)
    (hroom : machine.depth < registry.maxCallDepth) (hstack : condition machine.frames)
    (h : Runs registry surroundings task (machine.push (Frame.ofArgs args scope)) events
      (result, after))
    (ih : condition (machine.push (Frame.ofArgs args scope)).frames →
      ∀ stack ∈ Stack.moments (machine.push (Frame.ofArgs args scope)).frames events,
        condition stack) :
    ∀ stack ∈ Stack.moments machine.frames
        (.enter machine.frames.size index args scope :: events ++ [.leave machine.frames.size]),
      condition stack := by
  have hpushed : condition (machine.push (Frame.ofArgs args scope)).frames :=
    hlasting.push hstack hscope (by rw [depth] at hroom; omega)
  refine Stack.forall_moments_cons.mpr ⟨hstack, ?_⟩
  refine Stack.forall_moments_append h.foldl_apply (ih hpushed) ?_
  refine Stack.forall_moments_cons.mpr ⟨hlasting.fills hpushed h.fills, ?_⟩
  exact List.forall_mem_singleton.mpr (hlasting.fills hstack h.fills.pop)

private theorem Runs.lasting {condition : Stack → Prop}
    (hlasting : Lasting registry.maxCallDepth condition)
    (h : Runs registry surroundings task machine events outcome) (hplaced : task.Placed machine.frames)
    (hordered : Stack.Ordered machine.frames) (hstack : condition machine.frames) :
    ∀ stack ∈ Stack.moments machine.frames events, condition stack := by
  induction h with
  | data | missing _ _ | kept _ _ | unknown _ | refused _ _ | done | raise =>
    exact List.forall_mem_singleton.mpr hstack
  | reference _ ih => exact ih trivial hordered hstack
  | callee _ ih => exact ih hplaced hordered hstack
  | value hframe hslot h ih =>
    refine Stack.forall_moments_cons.mpr ⟨hstack, ?_⟩
    refine Stack.forall_moments_append h.foldl_apply
      (ih (hordered.scope_lt_size hframe) hordered hstack) ?_
    refine Stack.forall_moments_cons.mpr ⟨hlasting.fills hstack h.fills, ?_⟩
    exact List.forall_mem_singleton.mpr
      (hlasting.fills hstack (fills_store h.fills ⟨_, _, hframe, hslot⟩ _))
  | fault hframe hslot h ih =>
    refine Stack.forall_moments_cons.mpr ⟨hstack, ?_⟩
    refine Stack.forall_moments_append h.foldl_apply
      (ih (hordered.scope_lt_size hframe) hordered hstack) ?_
    have hafter := hlasting.fills hstack h.fills
    exact Stack.forall_moments_cons.mpr ⟨hafter, List.forall_mem_singleton.mpr hafter⟩
  | program _ hroom _ h ih =>
    exact hlasting.call hplaced hroom hstack h (ih trivial (hordered.push hplaced _))
  | definition _ hroom _ h ih =>
    exact hlasting.call hplaced hroom hstack h
      (ih (Task.placed_body _ _ _) (hordered.push hplaced _))
  | ask hanswer _ ihanswer ih =>
    have hfills := hanswer.fills
    refine Stack.forall_moments_cons.mpr ⟨hstack, ?_⟩
    exact Stack.forall_moments_append hanswer.foldl_apply (ihanswer trivial hordered hstack)
      (ih trivial (hfills.ordered hordered) (hlasting.fills hstack hfills))
  | arity _ _ ih => exact ih trivial hordered hstack
  | depth _ ih => exact ih trivial hordered hstack
  | outline _ ih => exact ih trivial hordered hstack
  | invocationPath _ ih => exact ih trivial hordered hstack
  | bytesAt _ ih => exact ih trivial hordered hstack
  | exchange _ ih => exact ih trivial hordered hstack

private theorem lasting_disciplined (maxCallDepth : Nat) :
    Lasting maxCallDepth (Stack.Disciplined maxCallDepth) where
  fills _ _ h hfills := ⟨hfills.size ▸ h.size, hfills.ordered h.ordered⟩
  push frames args scope h hscope hroom := by
    refine ⟨?_, h.ordered.push hscope args⟩
    rw [Array.size_push]
    omega

/-- The frames that were there at first stay below those of later calls. -/
theorem lasting_above (maxCallDepth floor : Nat) :
    Lasting maxCallDepth fun frames => floor ≤ frames.size where
  fills _ _ h hfills := hfills.size ▸ h
  push frames args scope h _ _ := by
    rw [Array.size_push]
    exact Nat.le_succ_of_le h

/-- A call adds itself to the calls of its body, all of which return. -/
theorem balanced_call {args : List Formula} {scope index : Nat} {result : Result}
    {after : Machine σ} (hscope : scope < machine.frames.size)
    (hordered : Stack.Ordered machine.frames)
    (h : Runs registry surroundings task (machine.push (Frame.ofArgs args scope)) events
      (result, after))
    (hplaced : task.Placed (machine.push (Frame.ofArgs args scope)).frames)
    (ih : Stack.Balanced (machine.push (Frame.ofArgs args scope)).frames events) :
    Stack.Balanced machine.frames
      (.enter machine.frames.size index args scope :: events ++ [.leave machine.frames.size]) := by
  have hsize : machine.frames.size + 1 ≤ (machine.push (Frame.ofArgs args scope)).frames.size :=
    Nat.le_of_eq (Array.size_push ..).symm
  have habove := h.lasting (lasting_above registry.maxCallDepth _) hplaced
    (hordered.push hscope args) hsize
  have hend := h.foldl_apply
  refine ⟨⟨events, [], rfl, habove, ?_⟩, ih.append ⟨trivial, trivial⟩⟩
  exact hend ▸ h.fills.pop

theorem Runs.balanced (h : Runs registry surroundings task machine events outcome)
    (hplaced : task.Placed machine.frames) (hordered : Stack.Ordered machine.frames) :
    Stack.Balanced machine.frames events := by
  induction h with
  | data | missing _ _ | kept _ _ | unknown _ | refused _ _ | done | raise => trivial
  | reference _ ih => exact ih trivial hordered
  | callee _ ih => exact ih hplaced hordered
  | value hframe _ _ ih | fault hframe _ _ ih =>
    exact ⟨trivial, (ih (hordered.scope_lt_size hframe) hordered).append ⟨trivial, trivial⟩⟩
  | program _ _ _ h ih =>
    exact balanced_call hplaced hordered h trivial (ih trivial (hordered.push hplaced _))
  | definition _ _ _ h ih =>
    exact balanced_call hplaced hordered h (Task.placed_body _ _ _)
      (ih (Task.placed_body _ _ _) (hordered.push hplaced _))
  | ask hanswer _ ihanswer ih =>
    have hrest := ih trivial (hanswer.fills.ordered hordered)
    exact ⟨trivial, (ihanswer trivial hordered).append (hanswer.foldl_apply ▸ hrest)⟩
  | arity _ _ ih => exact ih trivial hordered
  | depth _ ih => exact ih trivial hordered
  | outline _ ih => exact ih trivial hordered
  | invocationPath _ ih => exact ih trivial hordered
  | bytesAt _ ih => exact ih trivial hordered
  | exchange _ ih => exact ih trivial hordered

end
end Machine

/-- Every evaluation ends by the rules, in one way only, and with the answer that the rules give,
whatever the registry, the formula and the host functions are. At every moment the stack holds at
most one frame more than calls may be nested, and each frame but the outermost refers to one further
out. Every call returns and leaves the frames below it in place. -/
theorem Registry.evaluate_ends_with_disciplined_stack (registry : Registry σ)
    (surroundings : Surroundings σ) (state : σ) (formula : Formula) (args : List Bytes) :
    ∃ (result : Result) (after : Machine σ),
      Machine.Runs registry surroundings (.evaluate 0 formula) (.start state args)
        (registry.events surroundings state formula args) (result, after) ∧
      (∀ events outcome,
        Machine.Runs registry surroundings (.evaluate 0 formula) (.start state args) events
          outcome →
        events = registry.events surroundings state formula args ∧ outcome = (result, after)) ∧
      registry.evaluate surroundings state formula args =
        (result.located surroundings.invocationPath, after.state) ∧
      (registry.events surroundings state formula args).foldl Event.apply
        (Machine.start state args).frames = after.frames ∧
      (∀ frames ∈ Stack.moments (Machine.start state args).frames
          (registry.events surroundings state formula args),
        frames.size ≤ registry.maxCallDepth + 1 ∧
        ∀ position frame, frames[position]? = some frame → 0 < position →
          frame.scope < position) ∧
      Stack.Balanced (Machine.start state args).frames
        (registry.events surroundings state formula args) := by
  have hruns := registry.runs surroundings state formula args
  have hordered : Stack.Ordered (Machine.start state args).frames := Stack.ordered_outermost args
  have hstart : Stack.Disciplined registry.maxCallDepth (Machine.start state args).frames :=
    ⟨Nat.le_add_left _ _, hordered⟩
  refine ⟨_, _, hruns, fun _ _ h => hruns.unique h,
    registry.evaluate_eq_outcome surroundings state formula args, hruns.foldl_apply, ?_,
    hruns.balanced Nat.zero_lt_one hordered⟩
  intro frames hmem
  have hstack := hruns.lasting (Machine.lasting_disciplined _) Nat.zero_lt_one hordered hstart
    frames hmem
  refine ⟨hstack.size, fun position frame hframe hpos => ?_⟩
  rcases hstack.ordered hframe with hscope | ⟨rfl, -⟩
  · exact hscope
  · exact absurd hpos (Nat.lt_irrefl 0)

end ByteFormula
