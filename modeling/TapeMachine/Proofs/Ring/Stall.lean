import TapeMachine.Proofs.Machine.Suspension
import TapeMachine.Proofs.Ring.Round

namespace TapeMachine

variable {fuel : Nat} {signal : Option Int}

namespace Machine

/-- Terminated, or waiting with no input at hand, and with no output left. -/
structure AtRest (machine : Machine) : Prop where
  outputs : machine.outputs = .empty
  status : machine.status = .terminated ∨
    machine.status = .awaitingInput ∧ machine.inputs = .empty

structure Ready (machine : Machine) : Prop where
  outputs : machine.outputs = .empty
  prompt : machine.Prompt

theorem AtRest.ready {machine : Machine} (h : machine.AtRest) : machine.Ready where
  outputs := h.outputs
  prompt := by
    intro hawaiting
    obtain hterminated | ⟨-, hinputs⟩ := h.status
    · rw [hterminated] at hawaiting
      cases hawaiting
    · exact hinputs

theorem Prompt.feed? {machine : Machine} (h : machine.Prompt) (signal : Option Int) :
    (machine.feed? signal).Prompt := by
  rw [feed?_eq]
  exact h.feedAll signal.toList

theorem atRest_of_turn {machine next : Machine} {given : Handover} (h : machine.Ready)
    (hturn : turn fuel signal machine = .ok given next) : next.AtRest := by
  by_cases hterminated : machine.status = .terminated
  · rw [turn_of_terminated hterminated] at hturn
    cases hturn
    exact ⟨h.outputs, .inl hterminated⟩
  · obtain ⟨rested, hrun, -, rfl⟩ := (turn_eq_ok hterminated).1 hturn
    obtain ⟨hadvance, hrests⟩ := run_eq_ok.1 hrun
    have hprompt := (h.prompt.feed? signal).advance hadvance
    refine ⟨rfl, ?_⟩
    cases hstatus : rested.status with
    | running => exact absurd hstatus hrests
    | awaitingInput => exact .inr ⟨rfl, hprompt hstatus⟩
    | terminated => exact .inl rfl

theorem turn_of_atRest {machine : Machine} (h : machine.AtRest) (fuel : Nat) :
    turn fuel none machine = .ok ⟨none, false⟩ machine := by
  obtain ⟨houtputs, hterminated | ⟨hawaiting, -⟩⟩ := h
  · exact turn_of_terminated hterminated
  · have hlive : machine.status ≠ .terminated := by simp [hawaiting]
    refine (turn_eq_ok hlive).2 ⟨machine, ?_, ?_, ?_⟩
    · exact run_eq_ok.2 ⟨advance_of_rests (by simp [feed?, hawaiting]) _, by simp [hawaiting]⟩
    · simp [handover, houtputs, hawaiting]
    · rw [← houtputs]

theorem steps_of_advance {machine next : Machine} {n : Nat}
    (h : advance n machine = .ok () next) :
    machine.steps ≤ next.steps ∧
      (next.steps = machine.steps → next.outputs = machine.outputs) := by
  induction h using advance_induction with
  | rests _ _ => exact ⟨Nat.le_refl _, fun _ => rfl⟩
  | steps n machine _ between _ hrunning hstep ih =>
    obtain ⟨hle, heq⟩ := ih
    obtain ⟨i, effect, -, -, rfl⟩ := step_ok_of_running hrunning hstep
    have hsteps := steps_after machine i effect
    by_cases hawaiting : (machine.after i effect).status = .awaitingInput
    · rw [if_pos hawaiting] at hsteps
      rw [hsteps] at hle heq
      obtain rfl := eq_wait_of_awaiting hrunning hawaiting
      exact ⟨hle, heq⟩
    · rw [if_neg hawaiting] at hsteps
      exact ⟨by omega, fun hsame => by omega⟩

theorem ne_of_progress {machine next : Machine} {given : Handover}
    (h : turn fuel signal machine = .ok given next) (hprogress : given.progressed = true) :
    next ≠ machine := by
  rintro rfl
  by_cases hterminated : next.status = .terminated
  · rw [turn_of_terminated hterminated] at h
    cases h
    cases hprogress
  · obtain ⟨rested, hrun, rfl, hnext⟩ := (turn_eq_ok hterminated).1 h
    obtain ⟨hadvance, -⟩ := run_eq_ok.1 hrun
    have hsame := (steps_of_advance hadvance).2
    rw [steps_feed?, outputs_feed?] at hsame
    rw [hnext] at hterminated
    have hempty : rested.outputs = .empty := by
      rw [hsame (by rw [hnext]), hnext]
    have hlive : rested.status ≠ .terminated := hterminated
    simp [handover, hempty, hlive] at hprogress

theorem terminated_of_turn {machine next : Machine} {given : Handover}
    (h : turn fuel signal machine = .ok given next) (hstill : given.progressed = false)
    (hnext : next.status = .terminated) : machine.status = .terminated := by
  by_contra hlive
  obtain ⟨rested, -, rfl, rfl⟩ := (turn_eq_ok hlive).1 h
  have hterminated : rested.status = .terminated := hnext
  simp [handover, hterminated] at hstill

end Machine

namespace Ring

theorem atRest_of_pass {machines left : List Machine} {given : Handover}
    (h : ∀ machine ∈ machines, machine.Ready)
    (hpass : pass fuel signal machines = .ok given left) : ∀ machine ∈ left, machine.AtRest := by
  induction machines generalizing signal given left with
  | nil =>
    cases hpass
    simp
  | cons machine machines ih =>
    obtain ⟨hmachine, hmachines⟩ := List.forall_mem_cons.1 h
    obtain ⟨first, next, last, rest, hturn, hrest, -, rfl⟩ := pass_cons_eq_ok.1 hpass
    exact List.forall_mem_cons.2 ⟨Machine.atRest_of_turn hmachine hturn, ih hmachines hrest⟩

theorem pass_of_atRest {machines : List Machine} (h : ∀ machine ∈ machines, machine.AtRest)
    (fuel : Nat) : pass fuel none machines = .ok ⟨none, false⟩ machines := by
  induction machines with
  | nil => rfl
  | cons machine machines ih =>
    obtain ⟨hmachine, hmachines⟩ := List.forall_mem_cons.1 h
    exact pass_cons_eq_ok.2
      ⟨_, _, _, _, Machine.turn_of_atRest hmachine fuel, ih hmachines, rfl, rfl⟩

theorem ne_of_pass_progress {machines left : List Machine} {given : Handover}
    (h : pass fuel signal machines = .ok given left) (hprogress : given.progressed = true) :
    left ≠ machines := by
  induction machines generalizing signal given left with
  | nil =>
    cases h
    cases hprogress
  | cons machine machines ih =>
    obtain ⟨first, next, last, rest, hturn, hrest, rfl, rfl⟩ := pass_cons_eq_ok.1 h
    intro hsame
    obtain ⟨hnext, hmachines⟩ := List.cons.inj hsame
    obtain hfirst | hlast := Bool.or_eq_true_iff.1 hprogress
    · exact Machine.ne_of_progress hturn hfirst hnext
    · exact ih hrest hlast hmachines

theorem finished_cons_cons (first second : Machine) (machines : List Machine) :
    finished ⟨first :: second :: machines⟩ = finished ⟨second :: machines⟩ := by
  simp [finished]

theorem finished_of_pass {machines left : List Machine} {given : Handover}
    (h : pass fuel signal machines = .ok given left) (hstill : given.progressed = false)
    (hleft : finished ⟨left⟩ = true) : finished ⟨machines⟩ = true := by
  induction machines generalizing signal given left with
  | nil => rfl
  | cons machine machines ih =>
    obtain ⟨first, next, last, rest, hturn, hrest, rfl, rfl⟩ := pass_cons_eq_ok.1 h
    obtain ⟨hfirst, hlast⟩ := Bool.or_eq_false_iff.1 hstill
    cases machines with
    | nil =>
      cases hrest
      simp only [finished, List.getLast?_singleton, Option.all_some, decide_eq_true_eq] at hleft ⊢
      exact Machine.terminated_of_turn hturn hfirst hleft
    | cons second machines =>
      obtain ⟨_, next', _, rest', -, -, -, rfl⟩ := pass_cons_eq_ok.1 hrest
      rw [finished_cons_cons] at hleft ⊢
      exact ih hrest hlast hleft

theorem round_of_atRest {ring : Ring} (h : ∀ machine ∈ ring.machines, machine.AtRest)
    (fuel : Nat) : round fuel none ring = .ok ⟨none, false⟩ ring :=
  round_eq_ok.2 (pass_of_atRest h fuel)

theorem mapM_round_of_atRest {ring : Ring} (h : ∀ machine ∈ ring.machines, machine.AtRest)
    (fuel n : Nat) :
    (List.replicate n none).mapM (round fuel) ring =
      .ok (List.replicate n ⟨none, false⟩) ring := by
  induction n with
  | zero => rfl
  | succ n ih =>
    simp only [List.replicate_succ, List.mapM_cons, bind_eq, round_of_atRest h, ih]
    rfl

theorem ready_phased (program : List Int) (phase : Int) : (phased program phase).Ready where
  outputs := rfl
  prompt := by rintro ⟨⟩

theorem ready_of_ofPhases {program phases : List Int} {ring : Ring}
    (h : ofPhases program phases = .ok ring) : ∀ machine ∈ ring.machines, machine.Ready := by
  cases phases with
  | nil => cases h
  | cons phase phases =>
    cases h
    intro machine hmachine
    obtain ⟨phase, -, rfl⟩ := List.mem_map.1 hmachine
    exact ready_phased program phase

theorem ready_of_underway {seed : Int} {start ring : Ring} {soFar : Feedback}
    (hstart : ∀ machine ∈ start.machines, machine.Ready)
    (h : Underway seed start soFar signal ring) : ∀ machine ∈ ring.machines, machine.Ready := by
  induction h with
  | start => exact hstart
  | next _ _ hround _ ih =>
    intro machine hmachine
    exact (atRest_of_pass ih (round_eq_ok.1 hround) machine hmachine).ready

def Stalls (seed : Int) (start : Ring) (n : Nat) (final : Ring) : Prop :=
  ∃ enough, ∀ fuel, enough ≤ fuel → feedback fuel seed start = .error (.stalled n) final

theorem stalls_of_round {seed : Int} {start ring next : Ring} {soFar : Feedback}
    {given : Handover} (h : Underway seed start soFar signal ring) (hgoes : ring.finished = false)
    (hround : round fuel signal ring = .ok given next) (hstill : given.progressed = false) :
    Stalls seed start (soFar.rounds + 1) next := by
  obtain ⟨enough, hreach⟩ := circulate_of_underway h
  refine ⟨max (max enough fuel) (soFar.rounds + 1), ?_⟩
  intro n hn
  have hround' := round_fuel_mono (by omega : fuel ≤ n) hround
  have hleft : n = (n - soFar.rounds - 1) + 1 + soFar.rounds := by omega
  rw [feedback]
  conv_lhs => arg 2; rw [hleft]
  rw [hreach n (by omega), circulate_of_stall hgoes hround' hstill]

/-- A feedback run stalls only in a ring that is at rest for good. It stalls in the round that
leaves no signal, if that one makes no progress, or in the next one, and in every round that leaves
the ring as it was. -/
theorem stall_exact {program phases : List Int} {start : Ring}
    (hstart : ofPhases program phases = .ok start) (seed : Int) :
    (∀ fuel n final, feedback fuel seed start = .error (.stalled n) final →
      final.finished = false ∧ (∀ machine ∈ final.machines, machine.AtRest) ∧
      ∀ fuel n, (List.replicate n none).mapM (round fuel) final =
        .ok (List.replicate n ⟨none, false⟩) final) ∧
    ∀ soFar signal ring fuel given next, Underway seed start soFar signal ring →
      ring.finished = false → round fuel signal ring = .ok given next →
      (given.signal = none → next.finished = false →
        Stalls seed start (soFar.rounds + if given.progressed then 2 else 1) next) ∧
      (next = ring → Stalls seed start (soFar.rounds + 1) ring) := by
  have hready := ready_of_ofPhases hstart
  constructor
  · intro fuel n final hstall
    obtain ⟨soFar, signal, ring, given, hunderway, hgoes, hround, hstill⟩ :=
      underway_of_stall .start hstall
    have hpass := round_eq_ok.1 hround
    have hrest := atRest_of_pass (ready_of_underway hready hunderway) hpass
    refine ⟨?_, hrest, mapM_round_of_atRest hrest⟩
    cases hfinal : final.finished with
    | false => rfl
    | true => rw [← hgoes, finished_of_pass hpass hstill hfinal]
  · intro soFar signal ring fuel given next hunderway hgoes hround
    have hrest := atRest_of_pass (ready_of_underway hready hunderway) (round_eq_ok.1 hround)
    constructor
    · intro hsignal hnext
      cases hprogress : given.progressed with
      | false => exact stalls_of_round hunderway hgoes hround hprogress
      | true =>
        have hlater := Underway.next hunderway hgoes hround hprogress
        rw [hsignal] at hlater
        exact stalls_of_round hlater hnext (round_of_atRest hrest fuel) rfl
    · rintro rfl
      cases hprogress : given.progressed with
      | false => exact stalls_of_round hunderway hgoes hround hprogress
      | true => exact absurd rfl (ne_of_pass_progress (round_eq_ok.1 hround) hprogress)

theorem stall_exact_silent :
    ofPhases [3, 2] [99, 3] = .ok ⟨[phased [3, 2] 99, phased [3, 2] 3]⟩ ∧
    feedback 4 7 ⟨[phased [3, 2] 99, phased [3, 2] 3]⟩ =
      .error (.stalled 2)
        ⟨[⟨.ofList [3, 2, 99], 2, 0, .terminated, 2, .ofList [7], .empty⟩,
          ⟨.ofList [3, 2, 3, 0], 2, 0, .awaitingInput, 1, .empty, .empty⟩]⟩ ∧
    Machine.AtRest ⟨.ofList [3, 2, 3, 0], 2, 0, .awaitingInput, 1, .empty, .empty⟩ ∧
    Stalls 7 ⟨[phased [3, 2] 99, phased [3, 2] 3]⟩ 2
      ⟨[⟨.ofList [3, 2, 99], 2, 0, .terminated, 2, .ofList [7], .empty⟩,
        ⟨.ofList [3, 2, 3, 0], 2, 0, .awaitingInput, 1, .empty, .empty⟩]⟩ := by
  have hstart : ofPhases [3, 2] [99, 3] = .ok ⟨[phased [3, 2] 99, phased [3, 2] 3]⟩ := rfl
  have hround : round 2 (some 7) ⟨[phased [3, 2] 99, phased [3, 2] 3]⟩ =
      .ok ⟨none, true⟩
        ⟨[⟨.ofList [3, 2, 99], 2, 0, .terminated, 2, .ofList [7], .empty⟩,
          ⟨.ofList [3, 2, 3, 0], 2, 0, .awaitingInput, 1, .empty, .empty⟩]⟩ := by
    decide +kernel
  have hfeedback : feedback 4 7 ⟨[phased [3, 2] 99, phased [3, 2] 3]⟩ =
      .error (.stalled 2)
        ⟨[⟨.ofList [3, 2, 99], 2, 0, .terminated, 2, .ofList [7], .empty⟩,
          ⟨.ofList [3, 2, 3, 0], 2, 0, .awaitingInput, 1, .empty, .empty⟩]⟩ := by
    decide +kernel
  obtain ⟨-, hrest, -⟩ := (stall_exact hstart 7).1 _ _ _ hfeedback
  exact ⟨hstart, hfeedback, hrest _ (List.mem_cons_of_mem _ List.mem_cons_self),
    ((stall_exact hstart 7).2 _ _ _ _ _ _ .start rfl hround).1 rfl rfl⟩

end Ring

end TapeMachine
