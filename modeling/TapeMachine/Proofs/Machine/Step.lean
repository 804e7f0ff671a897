import Mathlib.Data.List.Basic
import TapeMachine.Proofs.Machine.Effect

/-!
The step equation: a step of a machine that has not terminated reads the instruction at its pointer,
looks at the cells of its operands, and either faults there or carries out one effect. Nothing but
the tape's length changes before the effect is known, with one exception: an input taken from the
queue for a cell with a negative address is gone.
-/

namespace TapeMachine

namespace Machine

def memory (machine : Machine) : Int → Int := machine.tape.get

def grow (machine : Machine) (size : Nat) : Machine :=
  { machine with tape := machine.tape.extend size }

def put (machine : Machine) (address value : Int) : Machine :=
  { machine with tape := machine.tape.set address.toNat value }

@[simp] theorem grow_zero (machine : Machine) : machine.grow 0 = machine := by
  simp [grow]

@[simp] theorem grow_grow (machine : Machine) (m n : Nat) :
    (machine.grow m).grow n = machine.grow (max m n) := by
  simp [grow]

@[simp] theorem memory_grow (machine : Machine) (n : Nat) :
    (machine.grow n).memory = machine.memory := by
  simp [grow, memory]

@[simp] theorem base_grow (machine : Machine) (n : Nat) : (machine.grow n).base = machine.base :=
  rfl

@[simp] theorem pointer_grow (machine : Machine) (n : Nat) :
    (machine.grow n).pointer = machine.pointer :=
  rfl

@[simp] theorem inputs_grow (machine : Machine) (n : Nat) :
    (machine.grow n).inputs = machine.inputs :=
  rfl

end Machine

namespace Effect

def commit : Effect → Machine → Machine
  | store address value, machine => machine.put address value
  | accept address value, machine =>
    { machine.put address value with inputs := machine.inputs.rest, status := .running }
  | wait, machine => { machine with status := .awaitingInput }
  | emit value, machine => { machine with outputs := machine.outputs.push value }
  | adjust value, machine => { machine with base := machine.base + value }
  | halt, machine => { machine with status := .terminated }
  | jump _, machine | pass, machine => machine

def next? (pointer : Int) : Effect → Option Int
  | jump address => some address
  | wait | halt => some pointer
  | store .. | accept .. | emit _ | adjust _ | pass => none

end Effect

/-- The end of an action that is told by its effect, the farthest cell it touches and the queue that
it leaves when it faults. -/
def conclude (effect : Except Fault Effect) (size : Nat) (left : Queue) (machine : Machine) :
    EStateM.Result Fault Machine (Option Int) :=
  match effect with
  | .ok effect => .ok (effect.next? machine.pointer) (effect.commit (machine.grow size))
  | .error fault => .error fault { machine.grow size with inputs := left }

namespace Machine

theorem source_eq (operand : Operand Int) (machine : Machine) :
    source operand machine =
      ending (operand.content machine.memory machine.base)
        (machine.grow (operand.reach machine.base)) := by
  change onTape (operand.load machine.base) machine = _
  rw [onTape, Operand.load_eq]
  cases h : operand.content machine.tape.get machine.base <;>
    simp only [memory, h, ending] <;> rfl

theorem target_eq (operand : Operand Int) (machine : Machine) :
    target operand machine = ending (operand.address machine.base) machine :=
  ofExcept_eq (operand.address machine.base) machine

theorem store_eq (address value : Int) (machine : Machine) :
    store address value machine =
      if address < 0 then .error (.negativeAddress address) machine
      else .ok () ((machine.grow (Tape.reach address)).put address value) := by
  rw [store, onTape, Tape.write_eq_set]
  by_cases h : address < 0
  · simp only [h, if_true]
  · simp only [h, if_false]
    rfl

theorem reachAll_destination {operand : Operand Int} {base address : Int}
    (h : operand.address base = .ok address) :
    Operand.reachAll base [operand] = Tape.reach address := by
  rw [Operand.address_eq] at h
  simp only [Operand.reachAll]
  cases hcell : operand.cell? base with
  | none => simp only [hcell, reduceCtorEq] at h
  | some cell =>
    simp only [hcell, Except.ok.injEq] at h
    subst h
    by_cases hneg : cell < 0
    · simp only [hneg, if_true, Tape.reach_of_neg]
    · simp only [hneg, if_false, Nat.max_zero]

theorem reachAll_immediate {operand : Operand Int} {base : Int} {fault : Fault}
    (h : operand.address base = .error fault) : Operand.reachAll base [operand] = 0 := by
  rw [Operand.address_eq] at h
  simp only [Operand.reachAll]
  cases hcell : operand.cell? base with
  | none => rfl
  | some cell => simp only [hcell, reduceCtorEq] at h

theorem combine_eq (f : Int → Int → Int) (a b destination : Operand Int) (machine : Machine) :
    (do combine f a b destination; return none : Action (Option Int)) machine =
      conclude (Instruction.combination machine.memory machine.base f a b destination)
        (Operand.reachAll machine.base [a, b, destination]) machine.inputs machine := by
  simp only [combine, bind_eq, source_eq, Instruction.combination]
  obtain ⟨x, hx, hreach⟩ | ⟨fault, hx, hreach, hall⟩ :=
    Operand.content_cases machine.memory machine.base a
  · simp only [hx, ending, memory_grow, base_grow, grow_grow, hreach]
    obtain ⟨y, hy, hreach'⟩ | ⟨fault, hy, hreach', hall⟩ :=
      Operand.content_cases machine.memory machine.base b
    · simp only [hy, target_eq, base_grow, hreach', ← Nat.max_assoc]
      cases hc : destination.address machine.base with
      | error fault =>
        simp only [ending, reachAll_immediate hc, Nat.max_zero]
        rfl
      | ok address =>
        simp only [ending, store_eq, grow_grow, reachAll_destination hc, Instruction.onCell]
        by_cases hneg : address < 0
        · simp only [hneg, if_true, Tape.reach_of_neg, Nat.max_zero]
          rfl
        · simp only [hneg, if_false]
          rfl
    · simp only [hy, hreach', hall]
      rfl
  · simp only [hx, ending, hreach, hall]
    rfl

theorem branch_eq (taken : Int → Bool) (condition goal : Operand Int) (machine : Machine) :
    branch taken condition goal machine =
      conclude (Instruction.branching machine.memory machine.base taken condition goal)
        (Operand.reachAll machine.base [condition, goal]) machine.inputs machine := by
  simp only [branch, bind_eq, source_eq, Instruction.branching]
  obtain ⟨x, hx, hreach⟩ | ⟨fault, hx, hreach, hall⟩ :=
    Operand.content_cases machine.memory machine.base condition
  · simp only [hx, ending, memory_grow, base_grow, grow_grow, hreach]
    obtain ⟨address, hy, hreach'⟩ | ⟨fault, hy, hreach', hall⟩ :=
      Operand.content_cases machine.memory machine.base goal
    · simp only [hy, hreach', Instruction.onCell, Operand.reachAll_nil, Nat.max_zero]
      cases taken x with
      | false => rfl
      | true =>
        by_cases hneg : address < 0
        · simp only [hneg, if_true]
          rfl
        · simp only [hneg, if_true, if_false]
          rfl
    · simp only [hy, hreach', hall]
      rfl
  · simp only [hx, ending, hreach, hall]
    rfl

theorem onSource_eq {action : Operand Int → Action Unit} (effect : Int → Effect)
    (haction : ∀ operand, action operand = do
      let value ← source operand
      modify (effect value).commit)
    (hnext : ∀ value pointer, (effect value).next? pointer = none)
    (operand : Operand Int) (machine : Machine) :
    (do action operand; return none : Action (Option Int)) machine =
      conclude ((operand.content machine.memory machine.base).map effect)
        (Operand.reachAll machine.base [operand]) machine.inputs machine := by
  simp only [haction, bind_eq, source_eq]
  obtain ⟨x, hx, hreach⟩ | ⟨fault, hx, hreach, hall⟩ :=
    Operand.content_cases machine.memory machine.base operand
  · simp only [hx, ending, hreach, Operand.reachAll_nil, Nat.max_zero, modify_eq, Except.map,
      conclude, hnext]
    rfl
  · simp only [hx, ending, hreach, hall]
    rfl

theorem mode_of_address_error {operand : Operand Int} {base : Int} {fault : Fault}
    (h : operand.address base = .error fault) : operand.mode = .immediate := by
  obtain ⟨mode, value⟩ := operand
  cases mode with
  | position => cases h
  | relative => cases h
  | immediate => rfl

theorem mode_of_address_ok {operand : Operand Int} {base address : Int}
    (h : operand.address base = .ok address) : operand.mode ≠ .immediate := by
  rintro hmode
  simp only [Operand.address, hmode, reduceCtorEq] at h

theorem receive_eq (destination : Operand Int) (machine : Machine) :
    receive destination machine =
      conclude (Instruction.reception machine.base machine.inputs.head? destination)
        (Instruction.reach machine.base machine.inputs.head? ⟨.input, [destination]⟩)
        (Instruction.leftover machine.inputs ⟨.input, [destination]⟩) machine := by
  simp only [receive, bind_eq, target_eq, Instruction.reception, Instruction.reach,
    Instruction.leftover]
  cases hc : destination.address machine.base with
  | error fault =>
    simp only [ending, mode_of_address_error hc, reachAll_immediate hc, ite_self, if_true]
    rfl
  | ok address =>
    simp only [ending, get_eq, Queue.pop?_eq, mode_of_address_ok hc, reachAll_destination hc]
    cases machine.inputs.head? with
    | none =>
      simp only [Option.map_none, Option.isSome_none, Bool.false_eq_true, if_false, bind_eq,
        modify_eq, conclude, grow_zero]
      rfl
    | some value =>
      simp only [Option.map_some, Option.isSome_some, if_true, if_false, Instruction.onCell,
        bind_eq, modify_eq, store_eq]
      by_cases hneg : address < 0
      · simp only [hneg, if_true, Tape.reach_of_neg]
        simp only [conclude, grow_zero]
      · simp only [hneg, if_false]
        rfl

theorem perform_eq {i : Instruction Int} (h : i.operands.length = i.op.arity) (machine : Machine) :
    perform i machine =
      conclude (i.effect machine.memory machine.base machine.inputs.head?)
        (i.reach machine.base machine.inputs.head?) (i.leftover machine.inputs) machine := by
  obtain ⟨op, operands⟩ := i
  cases op with
  | add =>
    obtain ⟨a, b, c, rfl⟩ := List.length_eq_three.1 h
    exact combine_eq ..
  | mul =>
    obtain ⟨a, b, c, rfl⟩ := List.length_eq_three.1 h
    exact combine_eq ..
  | less =>
    obtain ⟨a, b, c, rfl⟩ := List.length_eq_three.1 h
    exact combine_eq ..
  | equal =>
    obtain ⟨a, b, c, rfl⟩ := List.length_eq_three.1 h
    exact combine_eq ..
  | jumpTrue =>
    obtain ⟨a, b, rfl⟩ := List.length_eq_two.1 h
    exact branch_eq ..
  | jumpFalse =>
    obtain ⟨a, b, rfl⟩ := List.length_eq_two.1 h
    exact branch_eq ..
  | input =>
    obtain ⟨a, rfl⟩ := List.length_eq_one_iff.1 h
    exact receive_eq ..
  | output =>
    obtain ⟨a, rfl⟩ := List.length_eq_one_iff.1 h
    exact onSource_eq .emit (fun _ => rfl) (fun _ _ => rfl) a machine
  | adjustBase =>
    obtain ⟨a, rfl⟩ := List.length_eq_one_iff.1 h
    exact onSource_eq .adjust (fun _ => rfl) (fun _ _ => rfl) a machine
  | halt =>
    obtain rfl := List.length_eq_zero_iff.1 h
    simp only [Instruction.effect, Instruction.reach, Operand.reachAll_nil, conclude, grow_zero]
    rfl

theorem fetch_eq (machine : Machine) :
    onTape (Instruction.read machine.pointer) machine =
      ending (Instruction.standing machine.memory machine.pointer)
        (machine.grow (Instruction.span machine.memory machine.pointer)) := by
  rw [onTape, Instruction.read_eq_standing]
  simp only [memory]
  cases Instruction.standing machine.tape.get machine.pointer <;> rfl

def pending (machine : Machine) : Except Fault (Instruction Int) :=
  Instruction.standing machine.memory machine.pointer

def extent (machine : Machine) (i : Instruction Int) : Nat :=
  max (Instruction.span machine.memory machine.pointer)
    (i.reach machine.base machine.inputs.head?)

def outcome (machine : Machine) (i : Instruction Int) : Except Fault Effect :=
  i.effect machine.memory machine.base machine.inputs.head?

def after (machine : Machine) (i : Instruction Int) (effect : Effect) : Machine :=
  (effect.commit (machine.grow (machine.extent i))).complete (i.operands.length + 1)
    (effect.next? machine.pointer)

theorem step_eq {machine : Machine} (h : machine.status ≠ .terminated) :
    step machine =
      match machine.pending with
      | .error fault =>
        .error fault (machine.grow (Instruction.span machine.memory machine.pointer))
      | .ok i =>
        match machine.outcome i with
        | .ok effect => .ok () (machine.after i effect)
        | .error fault =>
          .error fault { machine.grow (machine.extent i) with
            inputs := i.leftover machine.inputs } := by
  rw [step, if_neg h]
  simp only [cycle, bind_eq, get_eq, fetch_eq, pending]
  cases hi : Instruction.standing machine.memory machine.pointer with
  | error fault => rfl
  | ok i =>
    simp only [ending, perform_eq (Instruction.length_of_standing hi), memory_grow, base_grow,
      inputs_grow, outcome, conclude, grow_grow, pointer_grow]
    cases i.effect machine.memory machine.base machine.inputs.head? <;> rfl

theorem step_of_terminated {machine : Machine} (h : machine.status = .terminated) :
    step machine = .ok () machine :=
  if_pos h

theorem step_of_pending_error {machine : Machine} {fault : Fault}
    (h : machine.status ≠ .terminated) (hi : machine.pending = .error fault) :
    step machine =
      .error fault (machine.grow (Instruction.span machine.memory machine.pointer)) := by
  rw [step_eq h]
  simp only [hi]

theorem step_of_outcome {machine : Machine} {i : Instruction Int} {effect : Effect}
    (h : machine.status ≠ .terminated) (hi : machine.pending = .ok i)
    (heffect : machine.outcome i = .ok effect) :
    step machine = .ok () (machine.after i effect) := by
  rw [step_eq h]
  simp only [hi, heffect]

theorem step_of_outcome_error {machine : Machine} {i : Instruction Int} {fault : Fault}
    (h : machine.status ≠ .terminated) (hi : machine.pending = .ok i)
    (hfault : machine.outcome i = .error fault) :
    step machine = .error fault
      { machine.grow (machine.extent i) with inputs := i.leftover machine.inputs } := by
  rw [step_eq h]
  simp only [hi, hfault]

theorem step_ok_cases {machine next : Machine} (h : step machine = .ok () next) :
    (machine.status = .terminated ∧ next = machine) ∨
    ∃ i effect, machine.status ≠ .terminated ∧ machine.pending = .ok i ∧
      machine.outcome i = .ok effect ∧ next = machine.after i effect := by
  by_cases hstatus : machine.status = .terminated
  · rw [step_of_terminated hstatus] at h
    cases h
    exact .inl ⟨hstatus, rfl⟩
  · rw [step_eq hstatus] at h
    cases hi : machine.pending with
    | error fault => simp only [hi, reduceCtorEq] at h
    | ok i =>
      cases heffect : machine.outcome i with
      | error fault => simp only [hi, heffect, reduceCtorEq] at h
      | ok effect =>
        simp only [hi, heffect, EStateM.Result.ok.injEq, true_and] at h
        exact .inr ⟨i, effect, hstatus, rfl, heffect, h.symm⟩

theorem step_ok_of_running {machine next : Machine} (h : machine.status = .running)
    (hstep : step machine = .ok () next) :
    ∃ i effect, machine.pending = .ok i ∧ machine.outcome i = .ok effect ∧
      next = machine.after i effect := by
  obtain ⟨hterminated, -⟩ | ⟨i, effect, -, hi, heffect, hnext⟩ := step_ok_cases hstep
  · rw [h] at hterminated
    cases hterminated
  · exact ⟨i, effect, hi, heffect, hnext⟩

theorem step_error_cases {machine next : Machine} {fault : Fault}
    (h : step machine = .error fault next) :
    (machine.pending = .error fault ∧
      next = machine.grow (Instruction.span machine.memory machine.pointer)) ∨
    ∃ i, machine.pending = .ok i ∧ machine.outcome i = .error fault ∧
      next = { machine.grow (machine.extent i) with inputs := i.leftover machine.inputs } := by
  by_cases hstatus : machine.status = .terminated
  · simp only [step_of_terminated hstatus, reduceCtorEq] at h
  · rw [step_eq hstatus] at h
    cases hi : machine.pending with
    | error fault =>
      simp only [hi, EStateM.Result.error.injEq] at h
      exact .inl ⟨congrArg Except.error h.1, h.2.symm⟩
    | ok i =>
      cases heffect : machine.outcome i with
      | ok effect => simp only [hi, heffect, reduceCtorEq] at h
      | error fault =>
        simp only [hi, heffect, EStateM.Result.error.injEq] at h
        exact .inr ⟨i, rfl, heffect.trans (congrArg Except.error h.1), h.2.symm⟩

theorem status_of_step_error {machine next : Machine} {fault : Fault}
    (h : step machine = .error fault next) : next.status = machine.status := by
  obtain ⟨-, rfl⟩ | ⟨i, -, -, rfl⟩ := step_error_cases h <;> rfl

theorem eq_wait_of_awaiting {machine : Machine} {i : Instruction Int} {effect : Effect}
    (h : machine.status = .running) (hnext : (machine.after i effect).status = .awaitingInput) :
    effect = .wait := by
  cases effect with
  | wait => rfl
  | accept _ _ | halt => cases hnext
  | _ =>
    have hawaiting : machine.status = .awaitingInput := hnext
    rw [h] at hawaiting
    cases hawaiting

theorem eq_halt_of_terminated {machine : Machine} {i : Instruction Int} {effect : Effect}
    (h : machine.status = .running) (hnext : (machine.after i effect).status = .terminated) :
    effect = .halt := by
  cases effect with
  | halt => rfl
  | accept _ _ | wait => cases hnext
  | _ =>
    have hterminated : machine.status = .terminated := hnext
    rw [h] at hterminated
    cases hterminated

theorem steps_after (machine : Machine) (i : Instruction Int) (effect : Effect) :
    (machine.after i effect).steps =
      if (machine.after i effect).status = .awaitingInput then machine.steps
      else machine.steps + 1 := by
  cases effect <;> rfl

end Machine

end TapeMachine
