import Mathlib.Logic.Function.Basic
import TapeMachine.Proofs.Machine.Step

/-!
The machine on the endless tape: all there is to a machine but the number of cells that it holds. A
step of the machine is a step of its view (`seen_step`), so nothing that a machine does depends on
how much of its tape is held.
-/

namespace TapeMachine

structure View : Type where
  memory : Int → Int
  pointer : Int
  base : Int
  status : Status
  steps : Nat
  inputs : Queue
  outputs : Queue

def Machine.view (machine : Machine) : View where
  memory := machine.memory
  pointer := machine.pointer
  base := machine.base
  status := machine.status
  steps := machine.steps
  inputs := machine.inputs
  outputs := machine.outputs

def seen {ε α : Type} : EStateM.Result ε Machine α → EStateM.Result ε View α
  | .ok a machine => .ok a machine.view
  | .error fault machine => .error fault machine.view

def Effect.cell? : Effect → Option Int
  | store address _ | accept address _ => some address
  | wait | emit _ | jump _ | pass | adjust _ | halt => none

def Effect.revise : Effect → View → View
  | store address value, view =>
    { view with memory := Function.update view.memory address value }
  | accept address value, view =>
    { view with
      memory := Function.update view.memory address value
      inputs := view.inputs.rest
      status := .running }
  | wait, view => { view with status := .awaitingInput }
  | emit value, view => { view with outputs := view.outputs.push value }
  | adjust value, view => { view with base := view.base + value }
  | halt, view => { view with status := .terminated }
  | jump _, view | pass, view => view

namespace View

def complete (view : View) (width : Nat) (next? : Option Int) : View :=
  { view with
    steps := if view.status = .awaitingInput then view.steps else view.steps + 1
    pointer := next?.getD (view.pointer + width) }

def after (view : View) (i : Instruction Int) (effect : Effect) : View :=
  (effect.revise view).complete (i.operands.length + 1) (effect.next? view.pointer)

def pending (view : View) : Except Fault (Instruction Int) :=
  Instruction.standing view.memory view.pointer

def outcome (view : View) (i : Instruction Int) : Except Fault Effect :=
  i.effect view.memory view.base view.inputs.head?

def step (view : View) : EStateM.Result Fault View Unit :=
  if view.status = .terminated then .ok () view
  else
    match view.pending with
    | .error fault => .error fault view
    | .ok i =>
      match view.outcome i with
      | .ok effect => .ok () (view.after i effect)
      | .error fault => .error fault { view with inputs := i.leftover view.inputs }

end View

namespace Instruction

variable {memory : Int → Int} {base : Int}

theorem reach_combination {f : Int → Int → Int} {a b destination : Operand Int} {e : Effect}
    {address : Int} (h : combination memory base f a b destination = .ok e)
    (he : e.cell? = some address) :
    0 ≤ address ∧ Tape.reach address ≤ Operand.reachAll base [a, b, destination] := by
  obtain ⟨x, y, cell, hx, hy, hcell, hnonneg, rfl⟩ := combination_ok h
  cases he
  refine ⟨hnonneg, ?_⟩
  obtain ⟨_, -, hreach⟩ | ⟨fault, hfault, -⟩ := Operand.content_cases memory base a
  · obtain ⟨_, -, hreach'⟩ | ⟨fault, hfault, -⟩ := Operand.content_cases memory base b
    · rw [hreach, hreach', Machine.reachAll_destination hcell]
      omega
    · rw [hfault] at hy
      cases hy
  · rw [hfault] at hx
    cases hx

theorem reach_cell {i : Instruction Int} {next? : Option Int} {e : Effect} {address : Int}
    (h : i.effect memory base next? = .ok e) (he : e.cell? = some address) :
    0 ≤ address ∧ Tape.reach address ≤ i.reach base next? := by
  obtain ⟨f, a, b, c, hop, hoperands, hcombination⟩ | ⟨_, _, _, hbranching⟩ |
    ⟨destination, rfl, hreception⟩ | ⟨_, rfl | rfl⟩ | ⟨-, rfl⟩ | rfl := effect_cases h
  · obtain ⟨hnonneg, hreach⟩ := reach_combination hcombination he
    refine ⟨hnonneg, ?_⟩
    rwa [reach_eq_reachAll hop, hoperands]
  · obtain ⟨_, _, -, -, ⟨-, -, rfl⟩ | ⟨-, rfl⟩⟩ := branching_ok hbranching <;> cases he
  · obtain ⟨cell, hcell, ⟨-, rfl⟩ | ⟨value, rfl, hnonneg, rfl⟩⟩ := reception_ok hreception
    · cases he
    · cases he
      refine ⟨hnonneg, Nat.le_of_eq ?_⟩
      rw [reach, if_pos Option.isSome_some, Machine.reachAll_destination hcell]
  all_goals cases he

end Instruction

namespace Machine

theorem memory_put {machine : Machine} {address : Int} (h : 0 ≤ address)
    (hheld : address.toNat < machine.tape.size) (value : Int) :
    (machine.put address value).memory = Function.update machine.memory address value := by
  funext index
  rw [Function.update_apply]
  simp only [memory, put]
  rw [Tape.get_set hheld, Int.toNat_of_nonneg h]

@[simp] theorem view_grow (machine : Machine) (size : Nat) :
    (machine.grow size).view = machine.view := by
  simp only [view, memory_grow]
  rfl

theorem view_commit {machine : Machine} {effect : Effect}
    (h : ∀ address, effect.cell? = some address →
      0 ≤ address ∧ address.toNat < machine.tape.size) :
    (effect.commit machine).view = effect.revise machine.view := by
  cases effect with
  | store address value =>
    obtain ⟨hnonneg, hheld⟩ := h address rfl
    simp only [view, Effect.commit, Effect.revise, memory_put hnonneg hheld]
    rfl
  | accept address value =>
    obtain ⟨hnonneg, hheld⟩ := h address rfl
    have hmemory := memory_put hnonneg hheld value
    simp only [view, Effect.commit, Effect.revise, ← hmemory]
    rfl
  | wait | emit _ | jump _ | pass | adjust _ | halt => rfl

theorem view_after {machine : Machine} {i : Instruction Int} {effect : Effect}
    (h : machine.outcome i = .ok effect) :
    (machine.after i effect).view = machine.view.after i effect := by
  have hheld (address : Int) (hcell : effect.cell? = some address) :
      0 ≤ address ∧ address.toNat < (machine.grow (machine.extent i)).tape.size := by
    obtain ⟨hnonneg, hreach⟩ := Instruction.reach_cell h hcell
    rw [Tape.reach_of_nonneg hnonneg] at hreach
    refine ⟨hnonneg, ?_⟩
    simp only [grow, Tape.size_extend, extent]
    omega
  have hcommit := view_commit hheld
  rw [view_grow] at hcommit
  rw [View.after, ← hcommit]
  rfl

theorem seen_step (machine : Machine) : seen (step machine) = machine.view.step := by
  by_cases h : machine.status = .terminated
  · rw [step_of_terminated h, View.step, if_pos (by exact h)]
    rfl
  · rw [View.step, if_neg (by exact h)]
    have hpending : machine.view.pending = machine.pending := rfl
    cases hi : machine.pending with
    | error fault =>
      rw [step_of_pending_error h hi]
      simp only [seen, view_grow, hpending, hi]
    | ok i =>
      have houtcome : machine.view.outcome i = machine.outcome i := rfl
      cases heffect : machine.outcome i with
      | error fault =>
        rw [step_of_outcome_error h hi heffect]
        simp only [hpending, hi, houtcome, heffect]
        exact congrArg
          (fun view : View => EStateM.Result.error fault
            { view with inputs := i.leftover machine.inputs })
          (view_grow machine (machine.extent i))
      | ok effect =>
        rw [step_of_outcome h hi heffect]
        simp only [seen, view_after heffect, hpending, hi, houtcome, heffect]

end Machine

end TapeMachine
