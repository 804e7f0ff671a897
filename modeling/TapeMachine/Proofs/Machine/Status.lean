import TapeMachine.Proofs.Machine.Atomicity
import TapeMachine.Proofs.Machine.Conservation
import TapeMachine.Proofs.Machine.Size
import TapeMachine.Proofs.Machine.Suspension
import TapeMachine.Proofs.Machine.Table
import TapeMachine.Proofs.Recall

namespace TapeMachine

@[simp] theorem Operand.modes_listed (memory : Int → Int) (modes : List Mode) (address : Int) :
    (listed memory modes address).map Operand.mode = modes := by
  induction modes generalizing address with
  | nil => rfl
  | cons mode modes ih => simp [listed, ih]

namespace Machine

theorem decode_of_pending {machine : Machine} {i : Instruction Int} (h : 0 ≤ machine.pointer)
    (hi : machine.pending = .ok i) :
    Instruction.decode (machine.memory machine.pointer) (some machine.pointer) =
      .ok (i.op, i.modes) := by
  obtain ⟨op, modes, hdecode, rfl⟩ := (Instruction.standing_eq_ok h).1 hi
  rw [hdecode, Instruction.modes, Operand.modes_listed]

theorem grow_of_le {machine : Machine} {size : Nat} (h : size ≤ machine.tape.size) :
    machine.grow size = machine := by
  rw [grow, Tape.extend_of_le h]

structure Starved (machine : Machine) : Prop where
  inputs : machine.inputs = .empty
  pending : ∃ destination, machine.pending = .ok ⟨.input, [destination]⟩ ∧
    destination.mode ≠ .immediate
  held : Instruction.span machine.memory machine.pointer ≤ machine.tape.size

theorem Starved.step {machine : Machine} (h : machine.Starved)
    (hstatus : machine.status = .awaitingInput) : step machine = .ok () machine := by
  obtain ⟨hinputs, ⟨destination, hi, hmode⟩, hheld⟩ := h
  have hlive : machine.status ≠ .terminated := by simp [hstatus]
  have hhead : machine.inputs.head? = none := by rw [hinputs]; rfl
  cases hc : destination.address machine.base with
  | error fault => exact absurd (mode_of_address_error hc) hmode
  | ok address =>
    rw [step_of_empty hlive hi hc (by rw [hinputs]; rfl), after, extent_of_empty hhead,
      grow_of_le hheld]
    obtain ⟨tape, pointer, base, status, steps, inputs, outputs⟩ := machine
    cases hstatus
    rfl

theorem starved_of_step {machine next : Machine} (h : machine.status = .running)
    (hstep : machine.step = .ok () next) (hnext : next.status = .awaitingInput) :
    next.Starved := by
  have heq := eq_of_step_awaiting h hstep hnext
  obtain ⟨i, effect, hi, heffect, rfl⟩ := step_ok_of_running h hstep
  obtain rfl := eq_wait_of_awaiting h hnext
  obtain ⟨destination, rfl, hreception⟩ := Instruction.input_of_effect heffect rfl
  obtain ⟨address, hc, -⟩ := Instruction.reception_ok hreception
  have hmemory : (machine.after ⟨.input, [destination]⟩ .wait).memory = machine.memory := by
    rw [heq]
    exact memory_grow machine _
  constructor
  · exact Queue.head?_eq_none.1 (head?_of_wait heffect).2
  · refine ⟨destination, ?_, mode_of_address_ok hc⟩
    rw [pending, hmemory]
    exact hi
  · rw [hmemory, heq]
    simp only [grow, Tape.size_extend]
    exact Nat.le_max_right _ _

/-- What status and pointer tell about a machine that only its program has worked on. -/
structure Faithful (machine : Machine) : Prop where
  pointer : 0 ≤ machine.pointer
  awaiting : machine.status = .awaitingInput → machine.Starved
  terminated : machine.status = .terminated → machine.pending = .ok ⟨.halt, []⟩

theorem faithful_of_running {machine : Machine} (h : 0 ≤ machine.pointer)
    (hstatus : machine.status = .running) : machine.Faithful where
  pointer := h
  awaiting hawaiting := by rw [hstatus] at hawaiting; cases hawaiting
  terminated hterminated := by rw [hstatus] at hterminated; cases hterminated

theorem pointer_after_nonneg {machine : Machine} {i : Instruction Int} {effect : Effect}
    (h : 0 ≤ machine.pointer) (heffect : machine.outcome i = .ok effect) :
    0 ≤ (machine.after i effect).pointer := by
  cases effect with
  | jump goal => exact Instruction.nonneg_of_jump heffect
  | wait | halt => exact h
  | store _ _ | accept _ _ | emit _ | pass | adjust _ =>
    exact Int.add_nonneg h (Int.natCast_nonneg _)

theorem Faithful.step_ok {machine next : Machine} (h : machine.Faithful)
    (hrunning : machine.status = .running) (hstep : step machine = .ok () next) :
    next.Faithful := by
  obtain ⟨i, effect, hi, heffect, rfl⟩ := step_ok_of_running hrunning hstep
  constructor
  · exact pointer_after_nonneg h.pointer heffect
  · exact starved_of_step hrunning hstep
  · intro hterminated
    obtain rfl := eq_halt_of_terminated hrunning hterminated
    obtain rfl := Instruction.halt_of_effect heffect
    have hmemory : (machine.after ⟨.halt, []⟩ .halt).memory = machine.memory :=
      memory_grow machine _
    rw [pending, hmemory]
    exact hi

theorem Faithful.step {machine : Machine} (h : machine.Faithful) :
    (remaining machine.step).Faithful := by
  cases hstatus : machine.status with
  | terminated =>
    rw [step_of_terminated hstatus]
    exact h
  | awaitingInput =>
    rw [(h.awaiting hstatus).step hstatus]
    exact h
  | running =>
    cases hstep : machine.step with
    | ok _ next => exact h.step_ok hstatus hstep
    | error fault next =>
      have hunchanged := unchanged_of_step_error hstep
      apply faithful_of_running
      · rw [remaining, hunchanged.pointer]
        exact h.pointer
      · rw [remaining, hunchanged.status]
        exact hstatus

theorem Faithful.advance {machine : Machine} (h : machine.Faithful) (n : Nat) :
    (remaining (machine.advance n)).Faithful := by
  revert h
  refine visited_induction ?rests ?steps n machine
  case rests =>
    intro machine h
    exact h
  case steps =>
    intro machine machines last _ ih h
    exact ih h.step

theorem Faithful.feed {machine : Machine} (h : machine.Faithful) (value : Int) :
    (machine.feed value).Faithful := by
  by_cases hawaiting : machine.status = .awaitingInput
  · exact faithful_of_running h.pointer (if_pos hawaiting)
  · have hstatus : (machine.feed value).status = machine.status := if_neg hawaiting
    constructor
    · exact h.pointer
    · intro hfed
      exact absurd (hstatus.symm.trans hfed) hawaiting
    · intro hfed
      exact h.terminated (hstatus.symm.trans hfed)

theorem Faithful.feedAll {machine : Machine} (h : machine.Faithful) (values : List Int) :
    (machine.feedAll values).Faithful := by
  induction values generalizing machine with
  | nil => exact h
  | cons value values ih => exact ih (h.feed value)

theorem Faithful.withOutputs {machine : Machine} (h : machine.Faithful) (outputs : Queue) :
    { machine with outputs := outputs }.Faithful where
  pointer := h.pointer
  awaiting hawaiting :=
    have hstarved := h.awaiting hawaiting
    ⟨hstarved.inputs, hstarved.pending, hstarved.held⟩
  terminated := h.terminated

theorem exists_loadPatched (program inputs : List Int) {patches : List (Int × Int)}
    (h : ∀ patch ∈ patches, 0 ≤ patch.1) :
    ∃ tape, loadPatched program inputs patches = .ok ((load program inputs).retape tape) :=
  ⟨_, by rw [loadPatched, patch_eq_serve h]⟩

def Spent (before after : Machine) : Prop :=
  ∃ inputs outputs, after = { before with inputs := inputs, outputs := outputs } ∧
    outputs.toList <:+ before.outputs.toList

theorem Spent.refl (machine : Machine) : machine.Spent machine :=
  ⟨machine.inputs, machine.outputs, rfl, List.suffix_refl _⟩

theorem Spent.trans {a b c : Machine} (h : a.Spent b) (h' : b.Spent c) : a.Spent c := by
  obtain ⟨_, _, rfl, houtputs⟩ := h
  obtain ⟨inputs, outputs, rfl, houtputs'⟩ := h'
  exact ⟨inputs, outputs, rfl, houtputs'.trans houtputs⟩

theorem spent_feedAll {machine : Machine} (h : machine.status ≠ .awaitingInput)
    (values : List Int) : machine.Spent (machine.feedAll values) := by
  rw [feedAll_of_awake h]
  exact ⟨_, machine.outputs, rfl, List.suffix_refl _⟩

theorem takeOutput_eq (machine : Machine) :
    ∃ outputs, machine.takeOutput.2 = { machine with outputs := outputs } ∧
      outputs.toList <:+ machine.outputs.toList := by
  rw [takeOutput]
  cases hpop : machine.outputs.pop? with
  | none => exact ⟨machine.outputs, rfl, List.suffix_refl _⟩
  | some pair =>
    obtain ⟨value, rest⟩ := pair
    refine ⟨rest, rfl, ?_⟩
    rw [Queue.pop?_eq_some.1 hpop]
    exact List.suffix_cons value rest.toList

end Machine

namespace Operation

/-- The host leaves tape, pointer and base to the program. -/
def handsOff : Operation → Bool
  | step | run _ | feed _ | feedAll _ | takeOutput | takeOutputs => true
  | read _ | write _ _ | setPointer _ | setBase _ => false

variable {operation : Operation} {machine : Machine}

theorem apply_cases (hands : operation.handsOff = true) (machine : Machine) :
    operation.apply machine = remaining machine.step ∨
    (∃ n, operation.apply machine = remaining (machine.advance n)) ∨
    (∃ outputs, operation.apply machine = { machine with outputs := outputs } ∧
      outputs.toList <:+ machine.outputs.toList) ∨
    operation.apply machine = machine.feedAll operation.fed := by
  cases operation with
  | step => exact .inl rfl
  | run allowance => exact .inr (.inl ⟨allowance.steps, Machine.remaining_run allowance machine⟩)
  | takeOutput => exact .inr (.inr (.inl machine.takeOutput_eq))
  | takeOutputs => exact .inr (.inr (.inl ⟨.empty, rfl, List.nil_suffix⟩))
  | feed value => exact .inr (.inr (.inr rfl))
  | feedAll values => exact .inr (.inr (.inr rfl))
  | read _ | write _ _ | setPointer _ | setBase _ => cases hands

theorem faithful_apply (hands : operation.handsOff = true) (h : machine.Faithful) :
    (operation.apply machine).Faithful := by
  obtain heq | ⟨n, heq⟩ | ⟨outputs, heq, -⟩ | heq := apply_cases hands machine
  · rw [heq]
    exact h.step
  · rw [heq]
    exact h.advance n
  · rw [heq]
    exact h.withOutputs outputs
  · rw [heq]
    exact h.feedAll operation.fed

theorem awaiting_apply (hands : operation.handsOff = true) (h : machine.Starved)
    (hawaiting : machine.status = .awaitingInput) (hfed : operation.fed = []) :
    (operation.apply machine).status = .awaitingInput := by
  obtain heq | ⟨n, heq⟩ | ⟨outputs, heq, -⟩ | heq := apply_cases hands machine
  · rw [heq, h.step hawaiting]
    exact hawaiting
  · rw [heq, Machine.advance_of_rests (by simp [hawaiting])]
    exact hawaiting
  · rw [heq]
    exact hawaiting
  · rw [heq, hfed]
    exact hawaiting

theorem spent_apply (hands : operation.handsOff = true)
    (h : machine.status = .terminated) : machine.Spent (operation.apply machine) := by
  obtain heq | ⟨n, heq⟩ | ⟨outputs, heq, hsuffix⟩ | heq := apply_cases hands machine
  · rw [heq, Machine.step_of_terminated h]
    exact .refl machine
  · rw [heq, Machine.advance_of_rests (by simp [h])]
    exact .refl machine
  · exact ⟨machine.inputs, outputs, heq, hsuffix⟩
  · rw [heq]
    exact Machine.spent_feedAll (by simp [h]) operation.fed

end Operation

namespace Session

variable {operations : List Operation} {machine : Machine}

theorem faithful_serve (hands : ∀ operation ∈ operations, operation.handsOff = true)
    (h : machine.Faithful) : (serve operations machine).Faithful := by
  induction operations generalizing machine with
  | nil => exact h
  | cons operation operations ih =>
    rw [List.forall_mem_cons] at hands
    exact ih hands.2 (Operation.faithful_apply hands.1 h)

theorem spent_serve (hands : ∀ operation ∈ operations, operation.handsOff = true)
    (h : machine.status = .terminated) : machine.Spent (serve operations machine) := by
  induction operations generalizing machine with
  | nil => exact .refl machine
  | cons operation operations ih =>
    rw [List.forall_mem_cons] at hands
    have hfirst := Operation.spent_apply hands.1 h
    have hstatus : (operation.apply machine).status = .terminated := by
      obtain ⟨_, _, heq, -⟩ := hfirst
      rw [heq]
      exact h
    exact hfirst.trans (ih hands.2 hstatus)

/-- The status of a machine that only its program works on is true to the word at its pointer: a
machine that waits has an input there and waits until it is fed, a machine that has terminated has a
halt there and goes on in no way. -/
theorem status_faithful (program inputs : List Int) (patches : List (Int × Int))
    (hpatches : ∀ patch ∈ patches, 0 ≤ patch.1) :
    ∃ start, Machine.loadPatched program inputs patches = .ok start ∧
      ∀ operations, (∀ operation ∈ operations, operation.handsOff = true) →
        ∀ reached, serve operations start = reached →
          0 ≤ reached.pointer ∧
          (reached.status = .awaitingInput →
            reached.inputs = .empty ∧
            (∃ mode, Instruction.decode (reached.memory reached.pointer) (some reached.pointer) =
              .ok (.input, [mode]) ∧ (mode = .position ∨ mode = .relative)) ∧
            reached.step = .ok () reached ∧
            (∀ allowance, reached.run allowance = .ok () reached) ∧
            ∀ operation : Operation, operation.handsOff = true →
              (operation.apply reached).status ≠ .awaitingInput → operation.fed ≠ []) ∧
          (reached.status = .terminated →
            Instruction.decode (reached.memory reached.pointer) (some reached.pointer) =
              .ok (.halt, []) ∧
            ∀ later, (∀ operation ∈ later, operation.handsOff = true) →
              ∃ inputs outputs,
                serve later reached = { reached with inputs := inputs, outputs := outputs } ∧
                outputs.toList <:+ reached.outputs.toList) := by
  obtain ⟨tape, hload⟩ := Machine.exists_loadPatched program inputs hpatches
  refine ⟨_, hload, ?_⟩
  intro operations hands reached hreached
  have hfaithful : reached.Faithful := by
    rw [← hreached]
    exact faithful_serve hands (Machine.faithful_of_running (Int.le_refl 0) rfl)
  refine ⟨hfaithful.pointer, ?_, ?_⟩
  · intro hawaiting
    have hstarved := hfaithful.awaiting hawaiting
    have hrests : reached.status ≠ .running := by simp [hawaiting]
    refine ⟨hstarved.inputs, ?_, hstarved.step hawaiting, ?_, ?_⟩
    · obtain ⟨destination, hi, hmode⟩ := hstarved.pending
      refine ⟨destination.mode, Machine.decode_of_pending hfaithful.pointer hi, ?_⟩
      cases hm : destination.mode with
      | position => exact .inl rfl
      | relative => exact .inr rfl
      | immediate => exact absurd hm hmode
    · intro allowance
      exact Machine.run_eq_ok.2 ⟨Machine.advance_of_rests hrests _, hrests⟩
    · intro operation hoperation hwoken hfed
      exact hwoken (Operation.awaiting_apply hoperation hstarved hawaiting hfed)
  · intro hterminated
    have hi := hfaithful.terminated hterminated
    refine ⟨Machine.decode_of_pending hfaithful.pointer hi, ?_⟩
    intro later hlater
    exact spent_serve hlater hterminated

theorem status_faithful_patched :
    Machine.loadPatched [99, 5, 104, 7, 3, 9, 99] [] [(0, 3)] =
      .ok (Machine.load [3, 5, 104, 7, 3, 9, 99] []) ∧
    serve [.step, .feed 20, .run (.limit 0), .run (.limit 1), .run (.fuel 9)]
        (Machine.load [3, 5, 104, 7, 3, 9, 99] []) =
      ⟨.ofList [3, 5, 104, 7, 3, 20, 99], 4, 0, .awaitingInput, 2, .empty, .ofList [7]⟩ ∧
    (Operation.run (.limit 3)).apply
        ⟨.ofList [3, 5, 104, 7, 3, 20, 99], 4, 0, .awaitingInput, 2, .empty, .ofList [7]⟩ =
      ⟨.ofList [3, 5, 104, 7, 3, 20, 99], 4, 0, .awaitingInput, 2, .empty, .ofList [7]⟩ ∧
    serve [.feed 4, .run (.limit 0), .run (.limit 2), .feed 20, .run (.fuel 9)]
        (Machine.load [3, 5, 104, 7, 3, 9, 99] []) =
      ⟨.ofList [3, 5, 104, 7, 20, 4, 99], 6, 0, .terminated, 4, .empty, .ofList [7]⟩ ∧
    ∃ inputs outputs,
      serve [.feed 1, .step, .takeOutput, .run (.limit 0)]
          ⟨.ofList [3, 5, 104, 7, 20, 4, 99], 6, 0, .terminated, 4, .empty, .ofList [7]⟩ =
        ⟨.ofList [3, 5, 104, 7, 20, 4, 99], 6, 0, .terminated, 4, inputs, outputs⟩ ∧
      outputs.toList <:+ [7] := by
  have hload : Machine.loadPatched [99, 5, 104, 7, 3, 9, 99] [] [(0, 3)] =
      .ok (Machine.load [3, 5, 104, 7, 3, 9, 99] []) :=
    rfl
  obtain ⟨start, hstart, h⟩ :=
    status_faithful [99, 5, 104, 7, 3, 9, 99] [] [(0, 3)] (by decide)
  obtain rfl := Except.ok.inj (hload.symm.trans hstart)
  have hwaiting : serve [.step, .feed 20, .run (.limit 0), .run (.limit 1), .run (.fuel 9)]
      (Machine.load [3, 5, 104, 7, 3, 9, 99] []) =
    ⟨.ofList [3, 5, 104, 7, 3, 20, 99], 4, 0, .awaitingInput, 2, .empty, .ofList [7]⟩ := by
    decide +kernel
  have hended : serve [.feed 4, .run (.limit 0), .run (.limit 2), .feed 20, .run (.fuel 9)]
      (Machine.load [3, 5, 104, 7, 3, 9, 99] []) =
    ⟨.ofList [3, 5, 104, 7, 20, 4, 99], 6, 0, .terminated, 4, .empty, .ofList [7]⟩ := by
    decide +kernel
  obtain ⟨-, hawaiting, -⟩ := h _ (by decide) _ hwaiting
  obtain ⟨-, -, hterminated⟩ := h _ (by decide) _ hended
  obtain ⟨-, -, -, hrun, -⟩ := hawaiting rfl
  exact ⟨hload, hwaiting, congrArg remaining (hrun (.limit 3)), hended,
    (hterminated rfl).2 [.feed 1, .step, .takeOutput, .run (.limit 0)] (by decide)⟩

end Session

end TapeMachine
