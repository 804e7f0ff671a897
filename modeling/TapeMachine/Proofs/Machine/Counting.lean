import TapeMachine.Proofs.Machine.Status

namespace TapeMachine

def Effect.status? : Effect → Option Status
  | accept _ _ => some .running
  | wait => some .awaitingInput
  | halt => some .terminated
  | store _ _ | emit _ | jump _ | pass | adjust _ => none

theorem Instruction.status?_of_effect {memory : Int → Int} {base : Int} {next? : Option Int}
    {i : Instruction Int} {e : Effect} (harity : i.operands.length = i.op.arity)
    (h : i.effect memory base next? = .ok e) :
    e.status? =
      match i.op with
      | .input => some (if next?.isSome then .running else .awaitingInput)
      | .halt => some .terminated
      | _ => none := by
  obtain ⟨op, operands⟩ := i
  cases op with
  | add | mul | less | equal =>
    obtain ⟨a, b, c, rfl⟩ := List.length_eq_three.1 harity
    obtain ⟨_, _, _, -, -, -, -, rfl⟩ := combination_ok h
    rfl
  | jumpTrue | jumpFalse =>
    obtain ⟨a, b, rfl⟩ := List.length_eq_two.1 harity
    obtain ⟨_, _, -, -, ⟨-, -, rfl⟩ | ⟨-, rfl⟩⟩ := branching_ok h <;> rfl
  | input =>
    obtain ⟨a, rfl⟩ := List.length_eq_one_iff.1 harity
    obtain ⟨_, -, ⟨rfl, rfl⟩ | ⟨_, rfl, -, rfl⟩⟩ := reception_ok h <;> rfl
  | output | adjustBase =>
    obtain ⟨a, rfl⟩ := List.length_eq_one_iff.1 harity
    obtain ⟨_, -, rfl⟩ := map_content_ok h
    rfl
  | halt =>
    obtain rfl := List.length_eq_zero_iff.1 harity
    cases h
    rfl

namespace Machine

/-- The next step completes an instruction. An input that finds nothing in the queue is repeated
later and not completed yet. -/
def completes (machine : Machine) : Bool :=
  match machine.pending, machine.step with
  | .ok i, .ok () _ =>
    machine.status ≠ .terminated && !(i.op = .input && machine.inputs = .empty)
  | _, _ => false

/-- The next step completes an instruction of a machine that waits, and neither an input nor a
halt, which alone set the status. -/
def overlooked (machine : Machine) : Bool :=
  match machine.pending with
  | .ok i =>
    machine.completes && machine.status = .awaitingInput && i.op ≠ .input && i.op ≠ .halt
  | .error _ => false

theorem completes_of_overlooked {machine : Machine} (h : machine.overlooked = true) :
    machine.completes = true := by
  rw [overlooked] at h
  split at h
  · simp only [Bool.and_eq_true] at h
    exact h.1.1.1
  · cases h

theorem overlooked_of_not_completes {machine : Machine} (h : machine.completes = false) :
    machine.overlooked = false := by
  rw [← Bool.not_eq_true] at h ⊢
  exact mt completes_of_overlooked h

theorem completes_of_error {machine next : Machine} {fault : Fault}
    (h : machine.step = .error fault next) : machine.completes = false := by
  rw [completes, h]
  split
  · next heq => cases heq
  · rfl

theorem completes_of_terminated {machine : Machine} (h : machine.status = .terminated) :
    machine.completes = false := by
  rw [completes]
  split
  · simp [h]
  · rfl

theorem status_after (machine : Machine) (i : Instruction Int) (effect : Effect) :
    (machine.after i effect).status = effect.status?.getD machine.status := by
  cases effect <;> rfl

section

variable {machine : Machine} {i : Instruction Int} {effect : Effect}
  (hlive : machine.status ≠ .terminated) (hi : machine.pending = .ok i)
  (heffect : machine.outcome i = .ok effect)

include hlive hi heffect

theorem completes_of_outcome :
    machine.completes = !(i.op = .input && machine.inputs = .empty) := by
  have hstep := step_of_outcome hlive hi heffect
  simp only [completes, hi, hstep, ne_eq, hlive, not_false_eq_true, decide_true, Bool.true_and]

theorem awaiting_after_iff :
    (machine.after i effect).status = .awaitingInput ↔
      machine.completes = false ∨ machine.overlooked = true := by
  have hstatus := Instruction.status?_of_effect (Instruction.length_of_standing hi) heffect
  have hcompletes := completes_of_outcome hlive hi heffect
  rw [status_after, hstatus]
  simp only [overlooked, hi, hcompletes]
  -- An input or a halt sets the status; after any other instruction it is what it was before.
  cases hop : i.op with
  | input =>
    by_cases hempty : machine.inputs = .empty
    · rw [Queue.head?_eq_none.2 hempty]
      simp [hempty]
    · obtain ⟨value, hvalue⟩ :=
        Option.ne_none_iff_exists'.1 (mt Queue.head?_eq_none.1 hempty)
      simp [hempty, hvalue]
  | halt => simp
  | _ => simp

end

theorem steps_step (machine : Machine) :
    (remaining machine.step).steps + (if machine.overlooked then 1 else 0) =
      machine.steps + (if machine.completes then 1 else 0) := by
  cases hstep : machine.step with
  | error fault next =>
    have hnot := completes_of_error hstep
    have hsteps : next.steps = machine.steps := by
      obtain ⟨-, rfl⟩ | ⟨i, -, -, rfl⟩ := step_error_cases hstep <;> rfl
    simp [hnot, overlooked_of_not_completes hnot, remaining, hsteps]
  | ok _ next =>
    obtain ⟨hterminated, rfl⟩ | ⟨i, effect, hlive, hi, heffect, rfl⟩ := step_ok_cases hstep
    · have hnot := completes_of_terminated hterminated
      simp [hnot, overlooked_of_not_completes hnot, remaining]
    · have hawaiting := awaiting_after_iff hlive hi heffect
      rw [remaining, steps_after]
      cases hcompletes : machine.completes with
      | false => simp [hawaiting, hcompletes, overlooked_of_not_completes hcompletes]
      | true => cases hoverlooked : machine.overlooked <;> simp [hawaiting, hcompletes, hoverlooked]

theorem advance_steps (n : Nat) (machine : Machine) :
    (remaining (advance n machine)).steps + (visited n machine).countP overlooked =
      machine.steps + (visited n machine).countP completes := by
  refine visited_induction ?rests ?steps n machine
  case rests =>
    intro machine
    rfl
  case steps =>
    intro machine machines last _ ih
    have hstep := steps_step machine
    rw [List.countP_cons, List.countP_cons]
    omega

end Machine

theorem Operation.steps_apply (operation : Operation) (machine : Machine) :
    (operation.apply machine).steps + (operation.visited machine).countP Machine.overlooked =
      machine.steps + (operation.visited machine).countP Machine.completes := by
  cases operation with
  | step =>
    have hstep := machine.steps_step
    simpa only [apply, visited, List.countP_singleton] using hstep
  | run allowance =>
    rw [apply, visited, Machine.remaining_run]
    exact machine.advance_steps allowance.steps
  | feedAll values =>
    obtain ⟨status, hfed⟩ := machine.feedAll_eq values
    rw [apply, hfed]
    rfl
  | takeOutput =>
    rw [apply, Machine.takeOutput]
    split <;> rfl
  | read address =>
    obtain ⟨tape, htape⟩ := machine.remaining_onTape (Tape.read address)
    rw [apply, htape]
    rfl
  | write address value =>
    obtain ⟨tape, htape⟩ := machine.remaining_onTape (Tape.write address value)
    rw [apply, Machine.store, htape]
    rfl
  | feed _ | takeOutputs | setPointer _ | setBase _ => rfl

namespace Session

theorem steps_serve (operations : List Operation) (machine : Machine) :
    (serve operations machine).steps + (visited operations machine).countP Machine.overlooked =
      machine.steps + (visited operations machine).countP Machine.completes := by
  induction operations generalizing machine with
  | nil => rfl
  | cons operation operations ih =>
    have hfirst := operation.steps_apply machine
    have hrest := ih (operation.apply machine)
    rw [serve, visited, List.countP_append, List.countP_append]
    omega

/-- Every completed instruction is counted but for the overlooked ones, and a machine waits after
an instruction that it has completed if and only if that is overlooked. So the count is right
exactly if none is. -/
theorem steps_counted (operations : List Operation) (machine : Machine) :
    (serve operations machine).steps + (visited operations machine).countP Machine.overlooked =
      machine.steps + (visited operations machine).countP Machine.completes ∧
    ((serve operations machine).steps =
      machine.steps + (visited operations machine).countP Machine.completes ↔
      ∀ before ∈ visited operations machine, before.overlooked = false) ∧
    ∀ before next : Machine, before.completes = true → before.step = .ok () next →
      (next.status = .awaitingInput ↔ before.overlooked = true) := by
  have hsteps := steps_serve operations machine
  refine ⟨hsteps, ?_, ?_⟩
  · rw [← hsteps, Nat.left_eq_add, List.countP_eq_zero]
    simp only [Bool.not_eq_true]
  · intro before next hcompletes hstep
    obtain ⟨hterminated, -⟩ | ⟨i, effect, hlive, hi, heffect, rfl⟩ :=
      Machine.step_ok_cases hstep
    · rw [Machine.completes_of_terminated hterminated] at hcompletes
      cases hcompletes
    · rw [Machine.awaiting_after_iff hlive hi heffect, hcompletes]
      simp

theorem steps_counted_overwritten :
    Machine.completes ⟨.ofList [104, 5, 99], 0, 0, .awaitingInput, 0, .empty, .empty⟩ = true ∧
    Machine.step ⟨.ofList [104, 5, 99], 0, 0, .awaitingInput, 0, .empty, .empty⟩ =
      .ok () ⟨.ofList [104, 5, 99], 2, 0, .awaitingInput, 0, .empty, .ofList [5]⟩ ∧
    (Status.awaitingInput = .awaitingInput ↔
      Machine.overlooked ⟨.ofList [104, 5, 99], 0, 0, .awaitingInput, 0, .empty, .empty⟩ =
        true) :=
  ⟨by decide, rfl,
    (steps_counted [] ⟨.ofList [104, 5, 99], 0, 0, .awaitingInput, 0, .empty, .empty⟩).2.2
      ⟨.ofList [104, 5, 99], 0, 0, .awaitingInput, 0, .empty, .empty⟩
      ⟨.ofList [104, 5, 99], 2, 0, .awaitingInput, 0, .empty, .ofList [5]⟩ (by decide) rfl⟩

theorem steps_not_counted :
    serve [.step, .write 0 104, .step] (Machine.load [3, 5, 99] []) =
      ⟨.ofList [104, 5, 99], 2, 0, .awaitingInput, 0, .empty, .ofList [5]⟩ ∧
    (visited [.step, .write 0 104, .step] (Machine.load [3, 5, 99] [])).countP
      Machine.completes = 1 ∧
    replies [.step, .write 0 104, .step] (Machine.load [3, 5, 99] []) =
      [.status .awaitingInput, .done, .status .awaitingInput] := by
  refine ⟨rfl, ?_, rfl⟩
  decide

end Session

end TapeMachine
