import TapeMachine.Proofs.Machine.Settling
import TapeMachine.Proofs.Machine.Step

namespace TapeMachine.Machine

/-- The machines differ at most in their input queues and in zeros at the end of the part of the
tape that is held. -/
structure Unchanged (before after : Machine) : Prop where
  pointer : after.pointer = before.pointer
  base : after.base = before.base
  status : after.status = before.status
  steps : after.steps = before.steps
  outputs : after.outputs = before.outputs
  cell : ∀ address, after.tape.get address = before.tape.get address
  held : ∃ n, after.tape.toList = before.tape.toList ++ List.replicate n 0

theorem unchanged_grow (machine : Machine) (size : Nat) (inputs : Queue) :
    Unchanged machine { machine.grow size with inputs := inputs } where
  pointer := rfl
  base := rfl
  status := rfl
  steps := rfl
  outputs := rfl
  cell := Tape.get_extend machine.tape size
  held := ⟨size - machine.tape.size, Tape.toList_extend machine.tape size⟩

theorem unchanged_of_step_error {machine next : Machine} {fault : Fault}
    (h : step machine = .error fault next) : Unchanged machine next := by
  obtain ⟨-, rfl⟩ | ⟨i, -, -, rfl⟩ := step_error_cases h
  · exact unchanged_grow machine _ machine.inputs
  · exact unchanged_grow machine _ (i.leftover machine.inputs)

theorem steps_of_step_ok {machine next : Machine} (hstatus : machine.status = .running)
    (h : step machine = .ok () next) (hnext : next.status = .running) :
    next.steps = machine.steps + 1 := by
  obtain ⟨i, effect, -, -, rfl⟩ := step_ok_of_running hstatus h
  rw [steps_after, hnext, if_neg (by decide)]

theorem running_of_advance_error {n : Nat} {machine next : Machine} {fault : Fault}
    (h : advance n machine = .error fault next) : machine.status = .running := by
  by_contra hrests
  rw [advance_of_rests hrests] at h
  cases h

theorem advance_error {n : Nat} {machine next : Machine} {fault : Fault}
    (h : advance n machine = .error fault next) :
    ∃ k last, advance k machine = .ok () last ∧ last.status = .running ∧
      last.steps = machine.steps + k ∧ step last = .error fault next := by
  induction n generalizing machine with
  | zero => cases h
  | succ n ih =>
    have hrunning := running_of_advance_error h
    rw [advance_succ hrunning] at h
    cases hstep : step machine with
    | error cause between =>
      rw [hstep] at h
      cases h
      exact ⟨0, machine, rfl, hrunning, rfl, hstep⟩
    | ok _ between =>
      rw [hstep] at h
      obtain ⟨k, last, hadvance, hlast, hsteps, hfault⟩ := ih h
      refine ⟨k + 1, last, ?_, hlast, ?_, hfault⟩
      · rw [advance_succ hrunning, hstep]
        exact hadvance
      · rw [hsteps, steps_of_step_ok hrunning hstep (running_of_advance_error h)]
        omega

/-- A fault undoes its step; a run that faults ends where its last completed instruction ended. -/
theorem fault_unchanged (machine : Machine) :
    (∀ fault next, step machine = .error fault next → Unchanged machine next) ∧
    ∀ allowance fault next, run allowance machine = .error (.fault fault) next →
      ∃ n last, advance n machine = .ok () last ∧ last.status = .running ∧
        last.steps = machine.steps + n ∧ step last = .error fault next ∧
        Unchanged last next := by
  constructor
  · intro fault next h
    exact unchanged_of_step_error h
  · intro allowance fault next h
    obtain ⟨n, last, hadvance, hlast, hsteps, hfault⟩ := advance_error (run_eq_fault.1 h)
    exact ⟨n, last, hadvance, hlast, hsteps, hfault, unchanged_of_step_error hfault⟩

theorem fault_unchanged_sum :
    step ⟨.ofList [109, 5, 1, 9, 0, -1], 2, 5, .running, 1, .empty, .empty⟩ =
      .error (.negativeAddress (-1))
        ⟨.ofList [109, 5, 1, 9, 0, -1, 0, 0, 0, 0], 2, 5, .running, 1, .empty, .empty⟩ ∧
    Unchanged ⟨.ofList [109, 5, 1, 9, 0, -1], 2, 5, .running, 1, .empty, .empty⟩
      ⟨.ofList [109, 5, 1, 9, 0, -1, 0, 0, 0, 0], 2, 5, .running, 1, .empty, .empty⟩ ∧
    run (.limit 7) (load [109, 5, 1, 9, 0, -1] []) =
      .error (.fault (.negativeAddress (-1)))
        ⟨.ofList [109, 5, 1, 9, 0, -1, 0, 0, 0, 0], 2, 5, .running, 1, .empty, .empty⟩ ∧
    ∃ n last, advance n (load [109, 5, 1, 9, 0, -1] []) = .ok () last ∧
      last.status = .running ∧ last.steps = (load [109, 5, 1, 9, 0, -1] []).steps + n ∧
      step last = .error (.negativeAddress (-1))
        ⟨.ofList [109, 5, 1, 9, 0, -1, 0, 0, 0, 0], 2, 5, .running, 1, .empty, .empty⟩ ∧
      Unchanged last
        ⟨.ofList [109, 5, 1, 9, 0, -1, 0, 0, 0, 0], 2, 5, .running, 1, .empty, .empty⟩ :=
  ⟨rfl, (fault_unchanged _).1 _ _ rfl, rfl, (fault_unchanged _).2 (.limit 7) _ _ rfl⟩

end TapeMachine.Machine
