import TapeMachine.Proofs.Machine.Replay
import TapeMachine.Proofs.Ring.Stall

namespace TapeMachine

variable {fuel : Nat} {signal : Option Int}

namespace Machine

/-- A turn in which a machine is given some values and emits some. A terminated machine is passed
over. -/
inductive Serves (fuel : Nat) (given : List Int) :
    (emitted : List Int) → Machine → Machine → Prop
  | over {machine : Machine} :
      machine.status = .terminated → Serves fuel given [] machine machine
  | live {machine rested : Machine} :
      machine.status ≠ .terminated →
      run (.fuel fuel) (machine.feedAll given) = .ok () rested →
      Serves fuel given (((machine.feedAll given).visited fuel).flatMap emitted) machine
        { rested with outputs := .empty }

def turnEmitted (fuel : Nat) (signal : Option Int) (machine : Machine) : List Int :=
  if machine.status = .terminated then []
  else ((machine.feed? signal).visited fuel).flatMap emitted

theorem outputs_after_turn {machine : Machine} (h : machine.outputs = .empty)
    (hlive : machine.status ≠ .terminated) :
    (remaining (advance fuel (machine.feed? signal))).outputs.toList =
      machine.turnEmitted fuel signal := by
  rw [advance_outputs, outputs_feed?, h, Queue.toList_empty, List.nil_append, turnEmitted,
    if_neg hlive]

theorem signal_of_turn {machine next : Machine} {given : Handover} (h : machine.outputs = .empty)
    (hturn : turn fuel signal machine = .ok given next) :
    given.signal = (machine.turnEmitted fuel signal).getLast? := by
  by_cases hterminated : machine.status = .terminated
  · rw [turn_of_terminated hterminated] at hturn
    cases hturn
    rw [turnEmitted, if_pos hterminated, List.getLast?_nil]
  · obtain ⟨rested, hrun, rfl, -⟩ := (turn_eq_ok hterminated).1 hturn
    have hadvance : advance fuel (machine.feed? signal) = .ok () rested := (run_eq_ok.1 hrun).1
    rw [← outputs_after_turn h hterminated, hadvance]
    rfl

theorem serves_of_turn {machine next : Machine} {given : Handover}
    (hturn : turn fuel signal machine = .ok given next) :
    Serves fuel signal.toList (machine.turnEmitted fuel signal) machine next := by
  by_cases hterminated : machine.status = .terminated
  · rw [turn_of_terminated hterminated] at hturn
    cases hturn
    rw [turnEmitted, if_pos hterminated]
    exact .over hterminated
  · obtain ⟨rested, hrun, -, rfl⟩ := (turn_eq_ok hterminated).1 hturn
    rw [feed?_eq] at hrun
    rw [turnEmitted, if_neg hterminated, feed?_eq]
    exact .live hterminated hrun

end Machine

namespace Ring

/-- What the machine at an index of a row hears if those before it emit the values of `emitted`. -/
def heard (signal : Option Int) (emitted : List (List Int)) : (index : Nat) → List Int
  | 0 => signal.toList
  | index + 1 => (emitted.getD index []).getLast?.toList

theorem heard_cons_succ (signal : Option Int) (first : List Int) (rest : List (List Int))
    (index : Nat) : heard signal (first :: rest) (index + 1) = heard first.getLast? rest index := by
  cases index <;> rfl

/-- A round: every machine of a row is served what it hears. -/
structure Routes (fuel : Nat) (signal : Option Int) (emitted : List (List Int))
    (machines left : List Machine) : Prop where
  length_emitted : emitted.length = machines.length
  length_left : left.length = machines.length
  serves : ∀ (i : Nat) (machine next : Machine), machines[i]? = some machine →
    left[i]? = some next →
    machine.Serves fuel (heard signal emitted i) (emitted.getD i []) next

theorem Routes.cons {emitted : List Int} {rest : List (List Int)} {machine next : Machine}
    {machines left : List Machine}
    (h : machine.Serves fuel signal.toList emitted next)
    (hrest : Routes fuel emitted.getLast? rest machines left) :
    Routes fuel signal (emitted :: rest) (machine :: machines) (next :: left) where
  length_emitted := congrArg Nat.succ hrest.length_emitted
  length_left := congrArg Nat.succ hrest.length_left
  serves := by
    intro i machine next hmachine hnext
    cases i with
    | zero =>
      cases hmachine
      cases hnext
      exact h
    | succ i =>
      rw [heard_cons_succ]
      exact hrest.serves i machine next hmachine hnext

theorem routes_of_pass {machines left : List Machine} {given : Handover}
    (h : ∀ machine ∈ machines, machine.Ready)
    (hpass : pass fuel signal machines = .ok given left) :
    ∃ emitted, Routes fuel signal emitted machines left ∧
      given.signal = (emitted.getLast?.map List.getLast?).getD signal := by
  induction machines generalizing signal given left with
  | nil =>
    cases hpass
    exact ⟨[], ⟨rfl, rfl, fun _ _ _ hmachine => by cases hmachine⟩, rfl⟩
  | cons machine machines ih =>
    obtain ⟨hmachine, hmachines⟩ := List.forall_mem_cons.1 h
    obtain ⟨first, next, last, rest, hturn, hrest, rfl, rfl⟩ := pass_cons_eq_ok.1 hpass
    have hfirst := Machine.signal_of_turn hmachine.outputs hturn
    rw [hfirst] at hrest
    obtain ⟨others, hroutes, hlast⟩ := ih hmachines hrest
    refine ⟨_, hroutes.cons (Machine.serves_of_turn hturn), ?_⟩
    rw [hlast]
    cases others with
    | nil => rfl
    | cons second others => rw [List.getLast?_cons_cons, List.getLast?_cons]; rfl

/-- The rings that come from starting one, appending machines and sending signals round. -/
inductive Driven : Ring → Prop
  | start {program phases : List Int} {ring : Ring} :
      ofPhases program phases = .ok ring → Driven ring
  | append {ring : Ring} (program : List Int) (phase : Int) :
      Driven ring → Driven (ring.append program phase)
  | round {ring next : Ring} {fuel : Nat} {signal : Option Int} {given : Handover} :
      Driven ring → round fuel signal ring = .ok given next → Driven next

theorem Driven.ready {ring : Ring} (h : Driven ring) :
    ∀ machine ∈ ring.machines, machine.Ready := by
  induction h with
  | start hstart => exact ready_of_ofPhases hstart
  | append program phase _ ih =>
    exact List.forall_mem_append.2 ⟨ih, List.forall_mem_singleton.2 (ready_phased program phase)⟩
  | round _ hround ih =>
    intro machine hmachine
    exact (atRest_of_pass ih (round_eq_ok.1 hround) machine hmachine).ready

theorem Driven.ne_nil {ring : Ring} (h : Driven ring) : ring.machines ≠ [] := by
  induction h with
  | @start _ phases _ hstart =>
    cases phases with
    | nil => cases hstart
    | cons phase phases =>
      cases hstart
      exact List.cons_ne_nil _ _
  | append program phase _ _ => exact List.append_ne_nil_of_right_ne_nil _ (List.cons_ne_nil _ _)
  | round hring hround ih =>
    obtain ⟨emitted, hroutes, -⟩ := routes_of_pass hring.ready (round_eq_ok.1 hround)
    intro hnil
    rw [← List.length_eq_zero_iff, hroutes.length_left, List.length_eq_zero_iff] at hnil
    exact ih hnil

/-- A round leaves every machine at rest, and every machine that had not terminated before ran on
exactly what it heard: the first one on the signal, every other one on the last value that the one
before it emitted in the round. What is returned is the last value of the last machine. -/
theorem heard_once {ring next : Ring} {given : Handover} (hdriven : Driven ring)
    (hround : round fuel signal ring = .ok given next) :
    (∀ machine ∈ next.machines, machine.AtRest) ∧
      ∃ emitted, Routes fuel signal emitted ring.machines next.machines ∧
        given.signal = (emitted.getLastD []).getLast? := by
  have hpass := round_eq_ok.1 hround
  refine ⟨atRest_of_pass hdriven.ready hpass, ?_⟩
  obtain ⟨emitted, hroutes, hsignal⟩ := routes_of_pass hdriven.ready hpass
  refine ⟨emitted, hroutes, ?_⟩
  cases emitted with
  | nil => exact absurd (List.length_eq_zero_iff.1 hroutes.length_emitted.symm) hdriven.ne_nil
  | cons first rest =>
    rw [hsignal, List.getLast?_cons, List.getLastD_cons, List.getLastD_eq_getLast?]
    rfl

-- Reads its phase and then, over and over, emits 1 and what it hears.
def echoing (value : Int) (steps : Nat) : Machine :=
  ⟨.ofList [value, 0, 3, 0, 104, 1, 4, 0, 1105, 1, 2], 2, 0, .awaitingInput, steps, .empty, .empty⟩

-- Took its phase 6 and halted; it did not read the 8 that it heard.
def deaf : Machine := ⟨.ofList [6, 0, 99], 2, 0, .terminated, 2, .ofList [8], .empty⟩

theorem heard_once_deaf :
    Driven ⟨[echoing 8 5, echoing 8 5, deaf, phased [3, 0, 104, 2, 99] 4]⟩ ∧
    round 5 (some 9) ⟨[echoing 8 5, echoing 8 5, deaf, phased [3, 0, 104, 2, 99] 4]⟩ =
      .ok ⟨some 2, true⟩ ⟨[echoing 9 9, echoing 9 9, deaf,
        ⟨.ofList [4, 0, 104, 2, 99], 4, 0, .terminated, 3, .empty, .empty⟩]⟩ ∧
    ∃ emitted, Routes 5 (some 9) emitted
        [echoing 8 5, echoing 8 5, deaf, phased [3, 0, 104, 2, 99] 4]
        [echoing 9 9, echoing 9 9, deaf,
          ⟨.ofList [4, 0, 104, 2, 99], 4, 0, .terminated, 3, .empty, .empty⟩] ∧
      some 2 = (emitted.getLastD []).getLast? := by
  have hstart : ofPhases [3, 0, 3, 0, 104, 1, 4, 0, 1105, 1, 2] [5, 7] =
      .ok ⟨[5, 7].map (phased [3, 0, 3, 0, 104, 1, 4, 0, 1105, 1, 2])⟩ := rfl
  have hbefore : round 8 (some 8)
      (append ⟨[5, 7].map (phased [3, 0, 3, 0, 104, 1, 4, 0, 1105, 1, 2])⟩ [3, 0, 99] 6) =
      .ok ⟨none, true⟩ ⟨[echoing 8 5, echoing 8 5, deaf]⟩ := by
    decide +kernel
  have hdriven : Driven ⟨[echoing 8 5, echoing 8 5, deaf, phased [3, 0, 104, 2, 99] 4]⟩ :=
    .append [3, 0, 104, 2, 99] 4 (.round (.append [3, 0, 99] 6 (.start hstart)) hbefore)
  have hround : round 5 (some 9)
        ⟨[echoing 8 5, echoing 8 5, deaf, phased [3, 0, 104, 2, 99] 4]⟩ =
      .ok ⟨some 2, true⟩ ⟨[echoing 9 9, echoing 9 9, deaf,
        ⟨.ofList [4, 0, 104, 2, 99], 4, 0, .terminated, 3, .empty, .empty⟩]⟩ := by
    decide +kernel
  exact ⟨hdriven, hround, (heard_once hdriven hround).2⟩

end Ring

end TapeMachine
