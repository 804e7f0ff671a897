import TapeMachine.Proofs.Machine.Conservation
import TapeMachine.Proofs.Machine.Replay

namespace TapeMachine

namespace Machine

theorem outputs_onTape {α : Type} (access : Tape.Access α) (machine : Machine) :
    (remaining (onTape access machine)).outputs = machine.outputs := by
  obtain ⟨tape, htape⟩ := remaining_onTape access machine
  rw [htape]

def restore (machine : Machine) (values : List Int) : Machine :=
  { machine with outputs := .ofList (values ++ machine.outputs.toList) }

@[simp] theorem restore_restore (machine : Machine) (xs ys : List Int) :
    (machine.restore xs).restore ys = machine.restore (ys ++ xs) := by
  simp [restore]

end Machine

def restored {ε α : Type} (values : List Int) :
    EStateM.Result ε Machine α → EStateM.Result ε Machine α
  | .ok a machine => .ok a (machine.restore values)
  | .error error machine => .error error (machine.restore values)

theorem remaining_restored {ε α : Type} (values : List Int) (result : EStateM.Result ε Machine α) :
    remaining (restored values result) = (remaining result).restore values := by
  cases result <;> rfl

theorem Reply.ofResult_restored {ε α : Type} (returned : α → Status → Reply)
    (cause : ε → Interruption) (values : List Int) (result : EStateM.Result ε Machine α) :
    ofResult returned cause (restored values result) = ofResult returned cause result := by
  cases result <;> rfl

namespace Machine

theorem after_restore (machine : Machine) (values : List Int) (i : Instruction Int)
    (effect : Effect) :
    (machine.restore values).after i effect = (machine.after i effect).restore values := by
  cases effect with
  | emit value =>
    have hpush (queue : Queue) : Queue.push (.ofList (values ++ queue.toList)) value =
        .ofList (values ++ (queue.push value).toList) :=
      Queue.toList_inj.1 (by simp)
    have hmachine : (machine.restore values).after i (.emit value) =
        { machine.after i (.emit value) with
          outputs := Queue.push (.ofList (values ++ machine.outputs.toList)) value } :=
      rfl
    rw [hmachine, hpush]
    rfl
  | _ => rfl

theorem step_restore (machine : Machine) (values : List Int) :
    step (machine.restore values) = restored values (step machine) := by
  by_cases h : machine.status = .terminated
  · rw [step_of_terminated h, step_of_terminated (by exact h)]
    rfl
  · have hlive : (machine.restore values).status ≠ .terminated := h
    cases hi : machine.pending with
    | error fault =>
      rw [step_of_pending_error h hi, step_of_pending_error hlive (by exact hi)]
      rfl
    | ok i =>
      cases heffect : machine.outcome i with
      | error fault =>
        rw [step_of_outcome_error h hi heffect,
          step_of_outcome_error hlive (by exact hi) (by exact heffect)]
        rfl
      | ok effect =>
        rw [step_of_outcome h hi heffect, step_of_outcome hlive (by exact hi) (by exact heffect),
          after_restore]
        rfl

theorem advance_restore (n : Nat) (machine : Machine) (values : List Int) :
    advance n (machine.restore values) = restored values (advance n machine) := by
  induction n generalizing machine with
  | zero => rfl
  | succ n ih =>
    by_cases hrunning : machine.status = .running
    · rw [advance_succ hrunning, advance_succ (by exact hrunning), step_restore]
      cases step machine with
      | error fault next => rfl
      | ok _ next => exact ih next
    · rw [advance_of_rests hrunning, advance_of_rests (by exact hrunning)]
      rfl

theorem run_restore (allowance : Allowance) (machine : Machine) (values : List Int) :
    run allowance (machine.restore values) = restored values (run allowance machine) := by
  simp only [run, advance_restore]
  cases advance allowance.steps machine with
  | error fault next => rfl
  | ok _ next =>
    simp only [restored]
    by_cases hrunning : next.status = .running
    · rw [if_pos hrunning, if_pos (by exact hrunning)]
    · rw [if_neg hrunning, if_neg (by exact hrunning)]

theorem onTape_restore {α : Type} (access : Tape.Access α) (machine : Machine)
    (values : List Int) :
    onTape access (machine.restore values) = restored values (onTape access machine) := by
  obtain ⟨tape, pointer, base, status, steps, inputs, outputs⟩ := machine
  simp only [onTape, restore]
  cases access tape <;> rfl

theorem feedAll_restore (machine : Machine) (values fed : List Int) :
    (machine.restore values).feedAll fed = (machine.feedAll fed).restore values := by
  induction fed generalizing machine with
  | nil => rfl
  | cons value fed ih => exact ih (machine.feed value)

end Machine

def Reply.drained : Reply → List Int
  | output value? => value?.toList
  | outputs values => values
  | done | status _ | value _ | interrupted _ => []

namespace Operation

def drains : Operation → Bool
  | takeOutput | takeOutputs => true
  | step | run _ | feed _ | feedAll _ | read _ | write _ _ | setPointer _ | setBase _ => false

theorem drained_reply {operation : Operation} (h : operation.drains = false)
    (machine : Machine) : (operation.reply machine).drained = [] := by
  cases operation with
  | step =>
    rw [reply]
    cases machine.step <;> rfl
  | run allowance =>
    rw [reply]
    cases machine.run allowance <;> rfl
  | read address =>
    rw [reply]
    cases Machine.onTape (Tape.read address) machine <;> rfl
  | write address value =>
    rw [reply]
    cases Machine.store address value machine <;> rfl
  | feed _ | feedAll _ | setPointer _ | setBase _ => rfl
  | takeOutput | takeOutputs => cases h

theorem outputs_apply (operation : Operation) (machine : Machine) :
    (operation.reply machine).drained ++ (operation.apply machine).outputs.toList =
      machine.outputs.toList ++ (operation.visited machine).flatMap Machine.emitted := by
  cases operation with
  | step =>
    rw [drained_reply rfl, List.nil_append, apply, Machine.step_outputs, visited,
      List.flatMap_singleton]
  | run allowance =>
    rw [drained_reply rfl, List.nil_append, apply, Machine.remaining_run,
      Machine.advance_outputs, visited]
  | feedAll values =>
    rw [apply, Machine.outputs_feedAll]
    exact (List.append_nil _).symm
  | read address =>
    rw [drained_reply rfl, List.nil_append, apply, Machine.outputs_onTape]
    exact (List.append_nil _).symm
  | write address value =>
    rw [drained_reply rfl, List.nil_append, apply, Machine.store, Machine.outputs_onTape]
    exact (List.append_nil _).symm
  | takeOutput =>
    simp only [reply, apply, visited, Machine.takeOutput, List.flatMap_nil, List.append_nil]
    cases hpop : machine.outputs.pop? with
    | none => rfl
    | some pair => exact (Queue.pop?_eq_some.1 hpop).symm
  | takeOutputs => rfl
  | feed _ | setPointer _ | setBase _ => exact (List.append_nil _).symm

theorem apply_restore {operation : Operation} (h : operation.drains = false) (machine : Machine)
    (values : List Int) :
    operation.apply (machine.restore values) = (operation.apply machine).restore values ∧
      operation.reply (machine.restore values) = operation.reply machine := by
  cases operation with
  | step =>
    simp only [apply, reply, Machine.step_restore, remaining_restored, Reply.ofResult_restored,
      and_self]
  | run allowance =>
    simp only [apply, reply, Machine.run_restore, remaining_restored, Reply.ofResult_restored,
      and_self]
  | feedAll fed => exact ⟨Machine.feedAll_restore machine values fed, rfl⟩
  | read address =>
    simp only [apply, reply, Machine.onTape_restore, remaining_restored, Reply.ofResult_restored,
      and_self]
  | write address value =>
    simp only [apply, reply, Machine.store, Machine.onTape_restore, remaining_restored,
      Reply.ofResult_restored, and_self]
  | feed _ | setPointer _ | setBase _ => exact ⟨rfl, rfl⟩
  | takeOutput | takeOutputs => cases h

theorem restore_drained {operation : Operation} (h : operation.drains = true)
    (machine : Machine) :
    (operation.apply machine).restore (operation.reply machine).drained = machine := by
  cases operation with
  | takeOutput =>
    simp only [apply, reply, Machine.takeOutput]
    cases hpop : machine.outputs.pop? with
    | none => rfl
    | some pair =>
      have houtputs := Queue.pop?_eq_some.1 hpop
      simp only [Machine.restore, Reply.drained, Option.toList_some, List.singleton_append,
        ← houtputs, Queue.ofList_toList]
  | takeOutputs =>
    simp only [apply, reply, Machine.takeOutputs, Machine.restore, Reply.drained,
      Queue.toList_empty, List.append_nil, Queue.ofList_toList]
  | step | run _ | feed _ | feedAll _ | read _ | write _ _ | setPointer _ | setBase _ => cases h

end Operation

namespace Session

def drained (operations : List Operation) (machine : Machine) : List Int :=
  (replies operations machine).flatMap Reply.drained

def undrained (operations : List Operation) : List Operation :=
  operations.filter fun operation => !operation.drains

theorem outputs_serve (operations : List Operation) (machine : Machine) :
    drained operations machine ++ (serve operations machine).outputs.toList =
      machine.outputs.toList ++ (visited operations machine).flatMap Machine.emitted := by
  induction operations generalizing machine with
  | nil => exact (List.append_nil _).symm
  | cons operation operations ih =>
    rw [drained, replies, List.flatMap_cons, List.append_assoc, ← drained, serve, ih,
      ← List.append_assoc, operation.outputs_apply, visited, List.flatMap_append,
      List.append_assoc]

theorem serve_undrained (operations : List Operation) (machine : Machine) (values : List Int) :
    serve (undrained operations) (machine.restore values) =
        (serve operations machine).restore (values ++ drained operations machine) ∧
      replies (undrained operations) (machine.restore values) =
        ((operations.zip (replies operations machine)).filter fun turn => !turn.1.drains).map
          Prod.snd := by
  -- The machine without drains is ahead by `values`, all that has been drained so far.
  induction operations generalizing machine values with
  | nil =>
    refine ⟨?_, rfl⟩
    rw [drained, replies, List.flatMap_nil, List.append_nil]
    rfl
  | cons operation operations ih =>
    cases hdrains : operation.drains with
    | true =>
      have hmachine := operation.restore_drained hdrains machine
      have hvalues : machine.restore values = (operation.apply machine).restore
          (values ++ (operation.reply machine).drained) := by
        rw [← Machine.restore_restore, hmachine]
      obtain ⟨hserve, hreplies⟩ := ih (operation.apply machine)
        (values ++ (operation.reply machine).drained)
      have hrest : undrained (operation :: operations) = undrained operations := by
        simp [undrained, hdrains]
      rw [hrest, hvalues, hserve, hreplies]
      simp [serve, drained, replies, hdrains]
    | false =>
      obtain ⟨happly, hreply⟩ := operation.apply_restore hdrains machine values
      obtain ⟨hserve, hreplies⟩ := ih (operation.apply machine) values
      have hrest : undrained (operation :: operations) = operation :: undrained operations := by
        simp [undrained, hdrains]
      rw [hrest, serve, replies, happly, hreply, hserve, hreplies]
      simp [serve, drained, replies, hdrains, operation.drained_reply hdrains]

/-- What the host takes and what is left in the queue is what was there at first and what completed
outputs have emitted, each value once and in order. A session without the operations that take
outputs has the same replies to all the others and ends with the same machine, but for the outputs
that have not been taken from it. -/
theorem outputs_delivered (operations : List Operation) (machine : Machine) :
    drained operations machine ++ (serve operations machine).outputs.toList =
      machine.outputs.toList ++ (visited operations machine).flatMap Machine.emitted ∧
    replies (undrained operations) machine =
      ((operations.zip (replies operations machine)).filter fun turn => !turn.1.drains).map
        Prod.snd ∧
    serve (undrained operations) machine =
      { serve operations machine with
        outputs := .ofList
          (drained operations machine ++ (serve operations machine).outputs.toList) } := by
  obtain ⟨hserve, hreplies⟩ := serve_undrained operations machine []
  exact ⟨outputs_serve operations machine, hreplies, hserve⟩

end Session

end TapeMachine
