import TapeMachine.Proofs.Machine.Status

namespace TapeMachine

namespace Machine

def resumed (machine : Machine) (address value : Int) : View :=
  { machine.view with
    memory := Function.update machine.memory address value
    pointer := machine.pointer + 2
    steps := machine.steps + 1
    status := .running
    inputs := .empty }

/-- The next value fed, whatever it is, is stored by the next step. -/
def Resumable (machine : Machine) : Prop :=
  ∀ value, ∃ address, machine.destination? = some address ∧
    seen (machine.feed value).step = .ok () (machine.resumed address value)

theorem Starved.feed_eq {machine : Machine} (h : machine.Starved)
    (hawaiting : machine.status = .awaitingInput) (value : Int) :
    machine.feed value = { machine with inputs := .ofList [value], status := .running } := by
  rw [feed, h.inputs, if_pos hawaiting]
  rfl

section

variable {machine : Machine} {destination : Operand Int} {address : Int}
  (hlive : machine.status ≠ .terminated)
  (hi : machine.pending = .ok ⟨.input, [destination]⟩)
  (hc : destination.address machine.base = .ok address)

include hlive hi hc

theorem seen_step_of_nonneg {value : Int} (hqueue : machine.inputs = .ofList [value])
    (h : 0 ≤ address) :
    seen machine.step =
      .ok () (machine.view.after ⟨.input, [destination]⟩ (.accept address value)) := by
  have houtcome : machine.outcome ⟨.input, [destination]⟩ = .ok (.accept address value) := by
    simp only [outcome, Instruction.effect, Instruction.reception, hc, hqueue, Queue.head?,
      Queue.toList_ofList, List.head?_cons, Instruction.onCell, if_neg (Int.not_lt.2 h)]
  rw [step_of_outcome hlive hi houtcome, seen, view_after houtcome]

theorem seen_step_of_negative {value : Int} (hqueue : machine.inputs = .ofList [value])
    (h : address < 0) :
    seen machine.step =
      .error (.negativeAddress address) { machine.view with inputs := .empty } := by
  have hvalues : machine.inputs.toList = [value] := by rw [hqueue, Queue.toList_ofList]
  rw [step_of_negative hlive hi hc h hvalues]
  exact congrArg
    (fun view : View => EStateM.Result.error (Fault.negativeAddress address)
      { view with inputs := .empty })
    (view_grow machine (machine.extent ⟨.input, [destination]⟩))

end

theorem Starved.step_feed {machine : Machine} (h : machine.Starved)
    (hawaiting : machine.status = .awaitingInput) :
    ∃ address, machine.destination? = some address ∧
      (0 ≤ address → ∀ value,
        seen (machine.feed value).step = .ok () (machine.resumed address value)) ∧
      (address < 0 → ∀ value,
        seen (machine.feed value).step =
          .error (.negativeAddress address) { machine.view with status := .running }) := by
  obtain ⟨destination, hi, hmode⟩ := h.pending
  cases hc : destination.address machine.base with
  | error fault => exact absurd (mode_of_address_error hc) hmode
  | ok address =>
    have hfed := h.feed_eq hawaiting
    have hlive (value : Int) : (machine.feed value).status ≠ .terminated := by simp [hfed]
    have hinputs (value : Int) : (machine.feed value).inputs = .ofList [value] := by rw [hfed]
    refine ⟨address, ?_, ?_, ?_⟩
    · rw [destination?_of_input (by simp [hawaiting]) hi, hc]
      rfl
    · intro hnonneg value
      have hstep := seen_step_of_nonneg (hlive value) (by exact hi) (by exact hc) (hinputs value)
        hnonneg
      rw [hstep, hfed]
      rfl
    · intro hneg value
      have hstep := seen_step_of_negative (hlive value) (by exact hi) (by exact hc)
        (hinputs value) hneg
      rw [hstep, hfed, ← h.inputs]
      rfl

theorem Starved.resumable_iff {machine : Machine} (h : machine.Starved)
    (hawaiting : machine.status = .awaitingInput) {address : Int}
    (hdestination : machine.destination? = some address) :
    machine.Resumable ↔ 0 ≤ address := by
  obtain ⟨address', hdestination', hstores, hfaults⟩ := h.step_feed hawaiting
  obtain rfl := Option.some.inj (hdestination.symm.trans hdestination')
  constructor
  · intro hresumable
    by_contra hneg
    obtain ⟨_, -, hstep⟩ := hresumable 0
    rw [hfaults (Int.not_le.1 hneg) 0] at hstep
    cases hstep
  · intro hnonneg value
    exact ⟨address, hdestination, hstores hnonneg value⟩

end Machine

namespace Session

/-- A machine that waits, and on which only its program has worked, is resumed by any value that the
host feeds, exactly if the destination of its input is not negative. Otherwise it faults for every
value and loses it. -/
theorem waiting_resumed (program inputs : List Int) (operations : List Operation)
    (hands : ∀ operation ∈ operations, operation.handsOff = true) {reached : Machine}
    (hreached : serve operations (Machine.load program inputs) = reached)
    (hawaiting : reached.status = .awaitingInput) :
    ∃ address, reached.destination? = some address ∧
      (reached.Resumable ↔ 0 ≤ address) ∧
      (address < 0 → ∀ value,
        seen (reached.feed value).step =
          .error (.negativeAddress address) { reached.view with status := .running }) := by
  have hfaithful : reached.Faithful := by
    rw [← hreached]
    exact faithful_serve hands (Machine.faithful_of_running (Int.le_refl 0) rfl)
  have hstarved := hfaithful.awaiting hawaiting
  obtain ⟨address, hdestination, -, hfaults⟩ := hstarved.step_feed hawaiting
  exact ⟨address, hdestination, hstarved.resumable_iff hawaiting hdestination, hfaults⟩

theorem waiting_resumed_relative :
    serve [.run (.limit 9)] (Machine.load [109, 4, 203, 1, 99] []) =
      ⟨.ofList [109, 4, 203, 1, 99], 2, 4, .awaitingInput, 1, .empty, .empty⟩ ∧
    Machine.Resumable
      ⟨.ofList [109, 4, 203, 1, 99], 2, 4, .awaitingInput, 1, .empty, .empty⟩ := by
  have hreached : serve [.run (.limit 9)] (Machine.load [109, 4, 203, 1, 99] []) =
      ⟨.ofList [109, 4, 203, 1, 99], 2, 4, .awaitingInput, 1, .empty, .empty⟩ := by
    decide +kernel
  obtain ⟨address, hdestination, hresumable, -⟩ :=
    waiting_resumed [109, 4, 203, 1, 99] [] [.run (.limit 9)] (by decide) hreached rfl
  have haddress : some 5 = some address := hdestination
  obtain rfl := Option.some.inj haddress
  exact ⟨hreached, hresumable.2 (by decide)⟩

theorem waiting_not_resumed :
    serve [.step] (Machine.load [3, -1] []) =
      ⟨.ofList [3, -1], 0, 0, .awaitingInput, 0, .empty, .empty⟩ ∧
    Machine.step (Machine.feed
        ⟨.ofList [3, -1], 0, 0, .awaitingInput, 0, .empty, .empty⟩ 5) =
      .error (.negativeAddress (-1)) ⟨.ofList [3, -1], 0, 0, .running, 0, .empty, .empty⟩ ∧
    ¬ Machine.Resumable ⟨.ofList [3, -1], 0, 0, .awaitingInput, 0, .empty, .empty⟩ := by
  refine ⟨rfl, rfl, ?_⟩
  intro hresumable
  obtain ⟨_, -, hstep⟩ := hresumable 5
  cases hstep

end Session

end TapeMachine
