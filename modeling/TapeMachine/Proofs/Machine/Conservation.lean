import TapeMachine.Proofs.Machine.Session
import TapeMachine.Proofs.Machine.Settling
import TapeMachine.Proofs.Machine.Step

namespace TapeMachine

namespace Machine

def destination? (machine : Machine) : Option Int :=
  if machine.status = .terminated then none
  else
    match machine.pending with
    | .ok ⟨.input, [destination]⟩ => (destination.address machine.base).toOption
    | _ => none

/-- What the next step finds in the queue and stores, as the tape shows it afterwards. -/
def stored (machine : Machine) : List Int :=
  match machine.destination?, machine.step with
  | some address, .ok () next =>
    if next.status = .awaitingInput then [] else [next.tape.get address]
  | _, _ => []

def dropped (machine : Machine) : List Int :=
  match machine.destination? with
  | some address => if address < 0 then machine.inputs.toList.take 1 else []
  | none => []

def taken (machine : Machine) : List Int := machine.stored ++ machine.dropped

theorem destination?_of_terminated {machine : Machine} (h : machine.status = .terminated) :
    machine.destination? = none :=
  if_pos h

theorem destination?_of_pending_error {machine : Machine} {fault : Fault}
    (h : machine.pending = .error fault) : machine.destination? = none := by
  simp only [destination?, h, ite_self]

theorem destination?_of_input {machine : Machine} {destination : Operand Int}
    (h : machine.status ≠ .terminated) (hi : machine.pending = .ok ⟨.input, [destination]⟩) :
    machine.destination? = (destination.address machine.base).toOption := by
  simp only [destination?, if_neg h, hi]

theorem destination?_of_ne_input {machine : Machine} {i : Instruction Int}
    (hi : machine.pending = .ok i) (h : i.op ≠ .input) : machine.destination? = none := by
  simp only [destination?, hi]
  split
  · rfl
  · split
    · next heq =>
      cases heq
      exact absurd rfl h
    · rfl

theorem stored_of_error {machine next : Machine} {fault : Fault}
    (h : machine.step = .error fault next) : machine.stored = [] := by
  simp only [stored, h]
  split
  · next heq => cases heq
  · rfl

theorem stored_of_ok {machine next : Machine} {address : Int}
    (h : machine.destination? = some address) (hstep : machine.step = .ok () next) :
    machine.stored = if next.status = .awaitingInput then [] else [next.tape.get address] := by
  simp only [stored, h, hstep]

theorem dropped_of_some {machine : Machine} {address : Int}
    (h : machine.destination? = some address) :
    machine.dropped = if address < 0 then machine.inputs.toList.take 1 else [] := by
  simp only [dropped, h]

theorem taken_of_none {machine : Machine} (h : machine.destination? = none) :
    machine.taken = [] := by
  simp only [taken, stored, dropped, h, List.append_nil]

theorem taken_of_error {machine next : Machine} {fault : Fault}
    (h : machine.step = .error fault next) : machine.taken = machine.dropped := by
  rw [taken, stored_of_error h, List.nil_append]

theorem inputs_after_of_ne_input {machine : Machine} {i : Instruction Int} {effect : Effect}
    (h : i.op ≠ .input) (heffect : machine.outcome i = .ok effect) :
    (machine.after i effect).inputs = machine.inputs := by
  cases hinput : effect.ofInput with
  | true =>
    obtain ⟨destination, rfl, -⟩ := Instruction.input_of_effect heffect hinput
    exact absurd rfl h
  | false =>
    cases effect with
    | accept _ _ | wait => cases hinput
    | _ => rfl

theorem leftover_of_ne_input {i : Instruction Int} (h : i.op ≠ .input) (queue : Queue) :
    i.leftover queue = queue := by
  unfold Instruction.leftover
  split
  · exact absurd rfl h
  · rfl

theorem step_inputs_of_ne_input {machine : Machine} {i : Instruction Int}
    (hstatus : machine.status ≠ .terminated) (hi : machine.pending = .ok i) (h : i.op ≠ .input) :
    (remaining machine.step).inputs = machine.inputs := by
  cases heffect : machine.outcome i with
  | error fault =>
    rw [step_of_outcome_error hstatus hi heffect]
    exact leftover_of_ne_input h machine.inputs
  | ok effect =>
    rw [step_of_outcome hstatus hi heffect]
    exact inputs_after_of_ne_input h heffect

section

variable {machine : Machine} {destination : Operand Int} {address value : Int} {values : List Int}

theorem step_of_immediate {fault : Fault} (hstatus : machine.status ≠ .terminated)
    (hi : machine.pending = .ok ⟨.input, [destination]⟩)
    (hc : destination.address machine.base = .error fault) :
    step machine = .error fault (machine.grow (machine.extent ⟨.input, [destination]⟩)) := by
  have houtcome : machine.outcome ⟨.input, [destination]⟩ = .error fault := by
    simp only [outcome, Instruction.effect, Instruction.reception, hc]
  rw [step_of_outcome_error hstatus hi houtcome, Instruction.leftover,
    if_pos (mode_of_address_error hc)]
  rfl

theorem step_of_empty (hstatus : machine.status ≠ .terminated)
    (hi : machine.pending = .ok ⟨.input, [destination]⟩)
    (hc : destination.address machine.base = .ok address) (hqueue : machine.inputs.toList = []) :
    step machine = .ok () (machine.after ⟨.input, [destination]⟩ .wait) := by
  apply step_of_outcome hstatus hi
  simp only [outcome, Instruction.effect, Instruction.reception, hc, Queue.head?, hqueue,
    List.head?_nil]

theorem step_of_nonneg (hstatus : machine.status ≠ .terminated)
    (hi : machine.pending = .ok ⟨.input, [destination]⟩)
    (hc : destination.address machine.base = .ok address) (h : 0 ≤ address)
    (hqueue : machine.inputs.toList = value :: values) :
    step machine = .ok () (machine.after ⟨.input, [destination]⟩ (.accept address value)) := by
  apply step_of_outcome hstatus hi
  simp only [outcome, Instruction.effect, Instruction.reception, hc, Queue.head?, hqueue,
    List.head?_cons, Instruction.onCell, Int.not_lt.2 h, if_false]

theorem step_of_negative (hstatus : machine.status ≠ .terminated)
    (hi : machine.pending = .ok ⟨.input, [destination]⟩)
    (hc : destination.address machine.base = .ok address) (h : address < 0)
    (hqueue : machine.inputs.toList = value :: values) :
    step machine = .error (.negativeAddress address)
      { machine.grow (machine.extent ⟨.input, [destination]⟩) with inputs := .ofList values } := by
  have houtcome : machine.outcome ⟨.input, [destination]⟩ = .error (.negativeAddress address) := by
    simp only [outcome, Instruction.effect, Instruction.reception, hc, Queue.head?, hqueue,
      List.head?_cons, Instruction.onCell, h, if_true]
  rw [step_of_outcome_error hstatus hi houtcome, Instruction.leftover,
    if_neg (mode_of_address_ok hc), Queue.rest, hqueue]
  rfl

theorem cell_after_accept (hc : destination.address machine.base = .ok address) (h : 0 ≤ address)
    (hqueue : machine.inputs.toList = value :: values) :
    (machine.after ⟨.input, [destination]⟩ (.accept address value)).tape.get address = value := by
  have hextent : machine.extent ⟨.input, [destination]⟩ =
      max (Instruction.span machine.memory machine.pointer) (Tape.reach address) := by
    simp only [extent, Instruction.reach, Queue.head?, hqueue, List.head?_cons,
      Option.isSome_some, if_true, reachAll_destination hc]
  have hsize : address.toNat <
      (machine.tape.extend (machine.extent ⟨.input, [destination]⟩)).size := by
    rw [Tape.size_extend, hextent, Tape.reach_of_nonneg h]
    omega
  change ((machine.tape.extend (machine.extent ⟨.input, [destination]⟩)).set address.toNat
    value).get address = value
  rw [Tape.get_set hsize, if_pos (Int.toNat_of_nonneg h).symm]

theorem step_inputs_of_input (hstatus : machine.status ≠ .terminated)
    (hi : machine.pending = .ok ⟨.input, [destination]⟩) :
    machine.inputs.toList = machine.taken ++ (remaining machine.step).inputs.toList := by
  have hdestination := destination?_of_input hstatus hi
  -- An input ends in one of four ways; only the fault for a negative cell loses a value.
  cases hc : destination.address machine.base with
  | error fault =>
    rw [hc] at hdestination
    rw [taken_of_none hdestination, step_of_immediate hstatus hi hc]
    rfl
  | ok address =>
    rw [hc] at hdestination
    cases hqueue : machine.inputs.toList with
    | nil =>
      have hstep := step_of_empty hstatus hi hc hqueue
      have hwaits : (machine.after ⟨.input, [destination]⟩ .wait).status = .awaitingInput := rfl
      rw [taken, stored_of_ok hdestination hstep, dropped_of_some hdestination, if_pos hwaits,
        hqueue, List.take_nil, ite_self, hstep]
      exact hqueue.symm
    | cons value values =>
      by_cases hneg : address < 0
      · have hstep := step_of_negative hstatus hi hc hneg hqueue
        rw [taken_of_error hstep, dropped_of_some hdestination, if_pos hneg, hqueue, hstep]
        rfl
      · have hstep := step_of_nonneg hstatus hi hc (Int.not_lt.1 hneg) hqueue
        have hcell := cell_after_accept hc (Int.not_lt.1 hneg) hqueue
        have hruns : (machine.after ⟨.input, [destination]⟩ (.accept address value)).status ≠
            .awaitingInput := by
          rintro ⟨⟩
        have hrest : machine.inputs.rest.toList = values := by
          rw [Queue.rest, hqueue]
          rfl
        rw [taken, stored_of_ok hdestination hstep, dropped_of_some hdestination, if_neg hruns,
          if_neg hneg, hcell, hstep, ← hrest]
        rfl

end

theorem step_inputs (machine : Machine) :
    machine.inputs.toList = machine.taken ++ (remaining machine.step).inputs.toList := by
  by_cases hstatus : machine.status = .terminated
  · have hnone := destination?_of_terminated hstatus
    rw [taken_of_none hnone, step_of_terminated hstatus]
    rfl
  · cases hi : machine.pending with
    | error fault =>
      have hnone := destination?_of_pending_error hi
      rw [taken_of_none hnone, step_of_pending_error hstatus hi]
      rfl
    | ok i =>
      by_cases hinput : i.op = .input
      · obtain ⟨op, operands⟩ := i
        cases hinput
        obtain ⟨destination, rfl⟩ :=
          List.length_eq_one_iff.1 (Instruction.length_of_standing hi)
        exact step_inputs_of_input hstatus hi
      · have hnone := destination?_of_ne_input hi hinput
        rw [taken_of_none hnone,
          step_inputs_of_ne_input hstatus hi hinput]
        rfl

theorem advance_inputs (n : Nat) (machine : Machine) :
    machine.inputs.toList =
      (visited n machine).flatMap taken ++ (remaining (advance n machine)).inputs.toList := by
  refine visited_induction ?rests ?steps n machine
  case rests =>
    intro machine
    rfl
  case steps =>
    intro machine machines last _ ih
    rw [step_inputs machine, ih, List.flatMap_cons, List.append_assoc]

theorem remaining_run (allowance : Allowance) (machine : Machine) :
    remaining (run allowance machine) = remaining (advance allowance.steps machine) := by
  simp only [run]
  cases advance allowance.steps machine with
  | error fault next => rfl
  | ok _ next =>
    dsimp only
    split <;> rfl

theorem inputs_onTape {α : Type} (access : Tape.Access α) (machine : Machine) :
    (remaining (onTape access machine)).inputs = machine.inputs := by
  obtain ⟨tape, htape⟩ := remaining_onTape access machine
  rw [htape]

theorem inputs_feedAll (values : List Int) (machine : Machine) :
    (machine.feedAll values).inputs.toList = machine.inputs.toList ++ values := by
  induction values generalizing machine with
  | nil => exact (List.append_nil _).symm
  | cons value values ih =>
    change ((machine.feed value).feedAll values).inputs.toList = _
    rw [ih, feed, Queue.toList_push, List.append_assoc]
    rfl

end Machine

theorem Operation.inputs_apply (operation : Operation) (machine : Machine) :
    machine.inputs.toList ++ operation.fed =
      (operation.visited machine).flatMap Machine.taken ++
        (operation.apply machine).inputs.toList := by
  cases operation with
  | step =>
    simp only [fed, visited, apply, List.append_nil, List.flatMap_cons, List.flatMap_nil]
    exact Machine.step_inputs machine
  | run allowance =>
    simp only [fed, visited, apply, List.append_nil, Machine.remaining_run]
    exact Machine.advance_inputs allowance.steps machine
  | feed value => exact (Queue.toList_push machine.inputs value).symm
  | feedAll values => exact (Machine.inputs_feedAll values machine).symm
  | takeOutput =>
    simp only [fed, visited, apply, Machine.takeOutput, List.append_nil, List.flatMap_nil]
    split <;> rfl
  | read address =>
    simp only [fed, visited, apply, Machine.inputs_onTape, List.append_nil, List.flatMap_nil]
    rfl
  | write address value =>
    simp only [fed, visited, apply, Machine.store, Machine.inputs_onTape, List.append_nil,
      List.flatMap_nil]
    rfl
  | takeOutputs | setPointer _ | setBase _ => exact List.append_nil _

namespace Session

theorem inputs_serve (operations : List Operation) (machine : Machine) :
    machine.inputs.toList ++ operations.flatMap Operation.fed =
      (visited operations machine).flatMap Machine.taken ++
        (serve operations machine).inputs.toList := by
  induction operations generalizing machine with
  | nil => exact List.append_nil _
  | cons operation operations ih =>
    rw [visited, serve, List.flatMap_cons, List.flatMap_append, ← List.append_assoc,
      operation.inputs_apply, List.append_assoc, ih, List.append_assoc]

theorem flatMap_stored_sublist (machines : List Machine) :
    (machines.flatMap Machine.stored).Sublist (machines.flatMap Machine.taken) := by
  induction machines with
  | nil => exact List.Sublist.refl []
  | cons machine machines ih =>
    exact (List.sublist_append_left machine.stored machine.dropped).append ih

theorem flatMap_stored_eq_iff (machines : List Machine) :
    machines.flatMap Machine.stored = machines.flatMap Machine.taken ↔
      ∀ machine ∈ machines, machine.dropped = [] := by
  induction machines with
  | nil => simp
  | cons machine machines ih =>
    rw [List.flatMap_cons, List.flatMap_cons, Machine.taken, List.append_assoc,
      List.append_cancel_left_eq, List.forall_mem_cons, ← ih]
    constructor
    · intro h
      have hlength := (flatMap_stored_sublist machines).length_le
      rw [h, List.length_append] at hlength
      have hdropped : machine.dropped = [] := List.eq_nil_of_length_eq_zero (by omega)
      rw [hdropped] at h
      exact ⟨hdropped, h⟩
    · rintro ⟨hdropped, h⟩
      rw [hdropped, h]
      rfl

/-- All that is put into the queue of a machine is stored on its tape, in order, or still in the
queue, if and only if no input was dropped; dropped inputs stand between the stored ones. -/
theorem inputs_conserved (operations : List Operation) (machine : Machine) :
    machine.inputs.toList ++ operations.flatMap Operation.fed =
      (visited operations machine).flatMap Machine.taken ++
        (serve operations machine).inputs.toList ∧
    (machine.inputs.toList ++ operations.flatMap Operation.fed =
      (visited operations machine).flatMap Machine.stored ++
        (serve operations machine).inputs.toList ↔
      ∀ before ∈ visited operations machine, before.dropped = []) ∧
    ∀ fault next, machine.step = .error fault next →
      (next.inputs = machine.inputs ↔ machine.dropped = []) := by
  refine ⟨inputs_serve operations machine, ?_, ?_⟩
  · rw [inputs_serve, List.append_cancel_right_eq, eq_comm]
    exact flatMap_stored_eq_iff _
  · intro fault next hstep
    have hinputs := Machine.step_inputs machine
    rw [Machine.taken_of_error hstep, hstep] at hinputs
    rw [← Queue.toList_inj, hinputs]
    exact List.self_eq_append_left

theorem inputs_conserved_dropped :
    Machine.step ⟨.ofList [5, 0, 3, -1], 2, 0, .running, 1, .ofList [7], .empty⟩ =
      .error (.negativeAddress (-1))
        ⟨.ofList [5, 0, 3, -1], 2, 0, .running, 1, .empty, .empty⟩ ∧
    (Queue.empty = Queue.ofList [7] ↔
      Machine.dropped ⟨.ofList [5, 0, 3, -1], 2, 0, .running, 1, .ofList [7], .empty⟩ = []) :=
  ⟨rfl, (inputs_conserved [] ⟨.ofList [5, 0, 3, -1], 2, 0, .running, 1, .ofList [7], .empty⟩).2.2
    (.negativeAddress (-1)) ⟨.ofList [5, 0, 3, -1], 2, 0, .running, 1, .empty, .empty⟩ rfl⟩

theorem inputs_not_conserved :
    (Machine.load [3, -1] [5]).inputs.toList ++ [Operation.step].flatMap Operation.fed = [5] ∧
    (visited [.step] (Machine.load [3, -1] [5])).flatMap Machine.stored ++
      (serve [.step] (Machine.load [3, -1] [5])).inputs.toList = [] ∧
    Machine.step (Machine.load [3, -1] [5]) =
      .error (.negativeAddress (-1)) { Machine.load [3, -1] [5] with inputs := .empty } := by
  refine ⟨rfl, ?_, rfl⟩
  decide

end Session

end TapeMachine
