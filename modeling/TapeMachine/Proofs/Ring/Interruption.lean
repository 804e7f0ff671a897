import TapeMachine.Proofs.Ring.Feedback

namespace TapeMachine

variable {fuel : Nat} {signal : Option Int}

namespace Machine

theorem turn_eq_error {machine stopped : Machine} {interruption : Interruption} :
    turn fuel signal machine = .error interruption stopped ↔
      machine.status ≠ .terminated ∧
        run (.fuel fuel) (machine.feed? signal) = .error interruption stopped := by
  by_cases hterminated : machine.status = .terminated
  · rw [turn_of_terminated hterminated]
    simp [hterminated]
  · rw [turn, if_neg hterminated, and_iff_right hterminated]
    cases run (.fuel fuel) (machine.feed? signal) <;> simp [takeOutputs]

theorem outputs_of_turn_fault {machine stopped : Machine} {fault : Fault}
    (h : machine.outputs = .empty)
    (hturn : turn fuel signal machine = .error (.fault fault) stopped) :
    stopped.outputs.toList = machine.turnEmitted fuel signal := by
  obtain ⟨hlive, hrun⟩ := turn_eq_error.1 hturn
  have hadvance : advance fuel (machine.feed? signal) = .error fault stopped := run_eq_fault.1 hrun
  rw [← outputs_after_turn h hlive, hadvance]
  rfl

end Machine

namespace Ring

theorem pass_cons_eq_error {machine : Machine} {machines left : List Machine}
    {interruption : Interruption} :
    pass fuel signal (machine :: machines) = .error interruption left ↔
      (∃ stopped, machine.turn fuel signal = .error interruption stopped ∧
        left = stopped :: machines) ∨
      ∃ given next rest, machine.turn fuel signal = .ok given next ∧
        pass fuel given.signal machines = .error interruption rest ∧ left = next :: rest := by
  rw [pass]
  cases machine.turn fuel signal with
  | error cause stopped => simp [eq_comm]
  | ok given next =>
    cases hrest : pass fuel given.signal machines with
    | error cause rest => simp [hrest, eq_comm]
    | ok last rest => simp [hrest]

theorem pass_eq_error {machines left : List Machine} {interruption : Interruption} :
    pass fuel signal machines = .error interruption left ↔
      ∃ front machine back given served stopped, machines = front ++ machine :: back ∧
        pass fuel signal front = .ok given served ∧
        machine.turn fuel given.signal = .error interruption stopped ∧
        left = served ++ stopped :: back := by
  induction machines generalizing signal left with
  | nil =>
    constructor
    · rintro ⟨⟩
    · rintro ⟨front, machine, back, _, _, _, hsplit, -⟩
      exact absurd hsplit.symm (List.append_ne_nil_of_right_ne_nil front (List.cons_ne_nil _ _))
  | cons first machines ih =>
    rw [pass_cons_eq_error]
    constructor
    · rintro (⟨stopped, hturn, rfl⟩ | ⟨given, next, _, hturn, hrest, rfl⟩)
      · exact ⟨[], first, machines, ⟨signal, false⟩, [], stopped, rfl, rfl, hturn, rfl⟩
      · obtain ⟨front, machine, back, last, served, stopped, rfl, hfront, hstopped, rfl⟩ :=
          ih.1 hrest
        exact ⟨first :: front, machine, back, _, next :: served, stopped, rfl,
          pass_cons_eq_ok.2 ⟨given, next, last, served, hturn, hfront, rfl, rfl⟩, hstopped, rfl⟩
    · rintro ⟨front, machine, back, _, _, stopped, hsplit, hfront, hstopped, rfl⟩
      obtain ⟨rfl, hfirst⟩ | ⟨front, rfl, rfl⟩ := List.cons_eq_append_iff.1 hsplit
      · cases hfirst
        cases hfront
        exact .inl ⟨stopped, hstopped, rfl⟩
      · obtain ⟨given, next, last, served, hturn, hrest, rfl, rfl⟩ := pass_cons_eq_ok.1 hfront
        exact .inr ⟨given, next, _, hturn,
          ih.2 ⟨front, machine, back, last, served, stopped, rfl, hrest, hstopped, rfl⟩, rfl⟩

theorem round_eq_error {ring next : Ring} {interruption : Interruption} :
    round fuel signal ring = .error (.interrupted interruption) next ↔
      pass fuel signal ring.machines = .error interruption next.machines := by
  rw [round]
  cases pass fuel signal ring.machines with
  | error cause left =>
    simp only [EStateM.Result.error.injEq, RingError.interrupted.injEq]
    constructor
    · rintro ⟨rfl, rfl⟩
      exact ⟨rfl, rfl⟩
    · rintro ⟨rfl, rfl⟩
      exact ⟨rfl, rfl⟩
  | ok given left => simp

/-- A round comes to the machine at an index: the ring cut off in front of it hands something on to
it, and with that its run is interrupted. -/
structure BreaksOff (fuel : Nat) (signal : Option Int) (ring : Ring) (interruption : Interruption)
    (index : Nat) (given : Handover) (served : List Machine) (machine stopped : Machine) :
    Prop where
  front : round fuel signal ⟨ring.machines.take index⟩ = .ok given ⟨served⟩
  here : ring.machines[index]? = some machine
  live : machine.status ≠ .terminated
  run : Machine.run (.fuel fuel) (machine.feed? given.signal) = .error interruption stopped

def BreaksAt (fuel : Nat) (signal : Option Int) (ring : Ring) (index : Nat) : Prop :=
  ∃ interruption given served machine stopped,
    BreaksOff fuel signal ring interruption index given served machine stopped

theorem round_eq_error_iff {ring next : Ring} {interruption : Interruption} :
    round fuel signal ring = .error (.interrupted interruption) next ↔
      ∃ index given served machine stopped,
        BreaksOff fuel signal ring interruption index given served machine stopped ∧
        next.machines = served ++ stopped :: ring.machines.drop (index + 1) := by
  rw [round_eq_error, pass_eq_error]
  constructor
  · rintro ⟨front, machine, back, given, served, stopped, hsplit, hfront, hturn, hnext⟩
    obtain ⟨hlive, hrun⟩ := Machine.turn_eq_error.1 hturn
    have htake : ring.machines.take front.length = front := by rw [hsplit, List.take_left]
    have hhere : ring.machines[front.length]? = some machine := by
      rw [hsplit, List.getElem?_append_right (Nat.le_refl _), Nat.sub_self]
      rfl
    have hback : ring.machines.drop (front.length + 1) = back := by
      rw [hsplit, ← List.drop_drop, List.drop_left]
      rfl
    refine ⟨front.length, given, served, machine, stopped, ⟨?_, hhere, hlive, hrun⟩, ?_⟩
    · rw [htake]
      exact round_eq_ok.2 hfront
    · rw [hback, hnext]
  · rintro ⟨index, given, served, machine, stopped, ⟨hfront, hhere, hlive, hrun⟩, hnext⟩
    have hsplit : ring.machines =
        ring.machines.take index ++ machine :: ring.machines.drop (index + 1) := by
      obtain ⟨hlt, rfl⟩ := List.getElem?_eq_some_iff.1 hhere
      rw [List.getElem_cons_drop, List.take_append_drop]
    exact ⟨_, machine, _, given, served, stopped, hsplit, round_eq_ok.1 hfront,
      Machine.turn_eq_error.2 ⟨hlive, hrun⟩, hnext⟩

section

variable {ring : Ring} {interruption : Interruption} {index : Nat} {given : Handover}
  {served : List Machine} {machine stopped : Machine}

theorem BreaksOff.cut
    (h : BreaksOff fuel signal ring interruption index given served machine stopped) {n : Nat}
    (hlt : index < n) :
    BreaksOff fuel signal ⟨ring.machines.take n⟩ interruption index given served machine stopped
    where
  front := by
    rw [List.take_take, Nat.min_eq_left (Nat.le_of_lt hlt)]
    exact h.front
  here := by
    rw [List.getElem?_take_of_lt hlt]
    exact h.here
  live := h.live
  run := h.run

theorem BreaksAt.not_lt {other : Nat} (h : BreaksAt fuel signal ring index)
    (hother : BreaksAt fuel signal ring other) : ¬ index < other := by
  intro hlt
  obtain ⟨interruption, given, served, machine, stopped, hbreaks⟩ := h
  obtain ⟨_, _, _, _, _, hreached⟩ := hother
  have herror : round fuel signal ⟨ring.machines.take other⟩ = .error (.interrupted interruption)
      ⟨served ++ stopped :: (ring.machines.take other).drop (index + 1)⟩ :=
    round_eq_error_iff.2 ⟨_, _, _, _, _, hbreaks.cut hlt, rfl⟩
  rw [hreached.front] at herror
  cases herror

theorem BreaksAt.unique {other : Nat} (h : BreaksAt fuel signal ring index)
    (hother : BreaksAt fuel signal ring other) : other = index :=
  Nat.le_antisymm (Nat.not_lt.1 (h.not_lt hother)) (Nat.not_lt.1 (hother.not_lt h))

end

/-- A round that raises a fault does so in the run of exactly one machine. Those in front of it are
as a round of their own leaves them, with no output left, and those behind it are unchanged. The
machine is as its run leaves it once it has heard what was handed on to it, and what it emitted in
the round is in its queue. -/
theorem fault_contained {ring next : Ring} {fault : Fault} (hdriven : Driven ring)
    (hround : round fuel signal ring = .error (.interrupted (.fault fault)) next) :
    ∃ index, (∀ other, BreaksAt fuel signal ring other ↔ other = index) ∧
      ∃ given served machine stopped,
        BreaksOff fuel signal ring (.fault fault) index given served machine stopped ∧
        next.machines = served ++ stopped :: ring.machines.drop (index + 1) ∧
        served.length = index ∧ (∀ machine ∈ served, machine.outputs = .empty) ∧
        stopped.outputs.toList = machine.turnEmitted fuel given.signal := by
  obtain ⟨index, given, served, machine, stopped, hbreaks, hnext⟩ := round_eq_error_iff.1 hround
  have hat : BreaksAt fuel signal ring index := ⟨_, _, _, _, _, hbreaks⟩
  have hready : ∀ machine ∈ ring.machines.take index, machine.Ready := fun machine hmachine =>
    hdriven.ready machine (List.mem_of_mem_take hmachine)
  have hfront : pass fuel signal (ring.machines.take index) = .ok given served :=
    round_eq_ok.1 hbreaks.front
  obtain ⟨emitted, hroutes, -⟩ := routes_of_pass hready hfront
  obtain ⟨hlt, -⟩ := List.getElem?_eq_some_iff.1 hbreaks.here
  refine ⟨index, ?_, given, served, machine, stopped, hbreaks, hnext, ?_, ?_, ?_⟩
  · intro other
    constructor
    · exact hat.unique
    · rintro rfl
      exact hat
  · rw [hroutes.length_left, List.length_take, Nat.min_eq_left (Nat.le_of_lt hlt)]
  · intro machine hmachine
    exact (atRest_of_pass hready hfront machine hmachine).outputs
  · have hempty := (hdriven.ready machine (List.mem_of_getElem? hbreaks.here)).outputs
    have hturn := Machine.turn_eq_error.2 ⟨hbreaks.live, hbreaks.run⟩
    exact Machine.outputs_of_turn_fault hempty hturn

-- Takes its phase for its last instruction, emits 7 and comes to it.
def risky : List Int := [3, 4, 104, 7, 0]

theorem fault_contained_second :
    Driven ⟨[phased risky 99, phased risky 0, phased risky 99]⟩ ∧
    round 4 (some 5) ⟨[phased risky 99, phased risky 0, phased risky 99]⟩ =
      .error (.interrupted (.fault (.unknownOpcode 0 (some 4))))
        ⟨[⟨.ofList [3, 4, 104, 7, 99], 4, 0, .terminated, 3, .ofList [5], .empty⟩,
          ⟨.ofList [3, 4, 104, 7, 0], 4, 0, .running, 2, .ofList [7], .ofList [7]⟩,
          phased risky 99]⟩ ∧
    ∀ other, BreaksAt 4 (some 5) ⟨[phased risky 99, phased risky 0, phased risky 99]⟩ other ↔
      other = 1 := by
  have hstart : ofPhases risky [99, 0, 99] =
      .ok ⟨[phased risky 99, phased risky 0, phased risky 99]⟩ := rfl
  have hround : round 4 (some 5) ⟨[phased risky 99, phased risky 0, phased risky 99]⟩ =
      .error (.interrupted (.fault (.unknownOpcode 0 (some 4))))
        ⟨[⟨.ofList [3, 4, 104, 7, 99], 4, 0, .terminated, 3, .ofList [5], .empty⟩,
          ⟨.ofList [3, 4, 104, 7, 0], 4, 0, .running, 2, .ofList [7], .ofList [7]⟩,
          phased risky 99]⟩ := by
    decide +kernel
  have hsecond : BreaksOff 4 (some 5) ⟨[phased risky 99, phased risky 0, phased risky 99]⟩
      (.fault (.unknownOpcode 0 (some 4))) 1 ⟨some 7, true⟩
      [⟨.ofList [3, 4, 104, 7, 99], 4, 0, .terminated, 3, .ofList [5], .empty⟩]
      (phased risky 0)
      ⟨.ofList [3, 4, 104, 7, 0], 4, 0, .running, 2, .ofList [7], .ofList [7]⟩ :=
    ⟨by decide +kernel, rfl, by decide, by decide +kernel⟩
  obtain ⟨index, hindex, -⟩ := fault_contained (.start hstart) hround
  obtain rfl := (hindex 1).1 ⟨_, _, _, _, _, hsecond⟩
  exact ⟨.start hstart, hround, hindex⟩

end Ring

end TapeMachine
