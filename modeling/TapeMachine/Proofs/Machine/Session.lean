import TapeMachine.Proofs.Machine.Settling

/-!
Sessions: what a host does with a machine, one operation after the other. An operation that is
interrupted leaves the machine as it is then, and the session goes on with it. Besides the machine
that it leaves, a session is told by what its operations return and by the machines from which its
steps were taken.
-/

namespace TapeMachine

inductive Operation : Type
  | step
  | run (allowance : Allowance)
  | feed (value : Int)
  | feedAll (values : List Int)
  | takeOutput
  | takeOutputs
  | read (address : Int)
  | write (address value : Int)
  | setPointer (address : Int)
  | setBase (address : Int)
  deriving DecidableEq

inductive Reply : Type
  | done
  | status (status : Status)
  | value (value : Int)
  | output (value? : Option Int)
  | outputs (values : List Int)
  | interrupted (interruption : Interruption)
  deriving DecidableEq

def Reply.ofResult {ε α : Type} (returned : α → Status → Reply) (cause : ε → Interruption) :
    EStateM.Result ε Machine α → Reply
  | .ok a machine => returned a machine.status
  | .error error _ => .interrupted (cause error)

namespace Machine

theorem remaining_onTape {α : Type} (access : Tape.Access α) (machine : Machine) :
    ∃ tape, remaining (onTape access machine) = { machine with tape := tape } := by
  obtain ⟨tape, pointer, base, status, steps, inputs, outputs⟩ := machine
  rw [onTape]
  cases access tape with
  | ok a tape' => exact ⟨tape', rfl⟩
  | error fault tape' => exact ⟨tape', rfl⟩

/-- The machines from which up to `n` steps are taken, as long as the machine runs. -/
def visited : (n : Nat) → Machine → List Machine
  | 0, _ => []
  | n + 1, machine =>
    if machine.status = .running then
      machine ::
        match step machine with
        | .ok () next => visited n next
        | .error _ _ => []
    else []

@[elab_as_elim]
theorem visited_induction {motive : (machine : Machine) → List Machine → Machine → Prop}
    (rests : ∀ machine, motive machine [] machine)
    (steps : ∀ machine machines last, machine.status = .running →
      motive (remaining machine.step) machines last → motive machine (machine :: machines) last)
    (n : Nat) (machine : Machine) :
    motive machine (visited n machine) (remaining (advance n machine)) := by
  induction n generalizing machine with
  | zero => exact rests machine
  | succ n ih =>
    by_cases hrunning : machine.status = .running
    · rw [advance_succ hrunning, visited, if_pos hrunning]
      apply steps machine _ _ hrunning
      cases machine.step with
      | error fault next => exact rests next
      | ok _ next => exact ih next
    · rw [advance_of_rests hrunning, visited, if_neg hrunning]
      exact rests machine

end Machine

namespace Operation

def apply : Operation → Machine → Machine
  | step, machine => remaining (machine.step)
  | run allowance, machine => remaining (machine.run allowance)
  | feed value, machine => machine.feed value
  | feedAll values, machine => machine.feedAll values
  | takeOutput, machine => machine.takeOutput.2
  | takeOutputs, machine => machine.takeOutputs.2
  | read address, machine => remaining (Machine.onTape (Tape.read address) machine)
  | write address value, machine => remaining (Machine.store address value machine)
  | setPointer address, machine => { machine with pointer := address }
  | setBase address, machine => { machine with base := address }

def reply : Operation → Machine → Reply
  | step, machine => .ofResult (fun _ status => .status status) .fault machine.step
  | run allowance, machine =>
    .ofResult (fun _ status => .status status) id (machine.run allowance)
  | takeOutput, machine => .output machine.takeOutput.1
  | takeOutputs, machine => .outputs machine.takeOutputs.1
  | read address, machine =>
    .ofResult (fun value _ => .value value) .fault (Machine.onTape (Tape.read address) machine)
  | write address value, machine =>
    .ofResult (fun _ _ => .done) .fault (Machine.store address value machine)
  | feed _, _ | feedAll _, _ | setPointer _, _ | setBase _, _ => .done

def visited : Operation → Machine → List Machine
  | step, machine => [machine]
  | run allowance, machine => machine.visited allowance.steps
  | _, _ => []

def fed : Operation → List Int
  | feed value => [value]
  | feedAll values => values
  | _ => []

end Operation

namespace Session

def serve : List Operation → Machine → Machine
  | [], machine => machine
  | operation :: operations, machine => serve operations (operation.apply machine)

def replies : List Operation → Machine → List Reply
  | [], _ => []
  | operation :: operations, machine =>
    operation.reply machine :: replies operations (operation.apply machine)

def visited : List Operation → Machine → List Machine
  | [], _ => []
  | operation :: operations, machine =>
    operation.visited machine ++ visited operations (operation.apply machine)

end Session

end TapeMachine
