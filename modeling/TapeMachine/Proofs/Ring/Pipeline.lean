import TapeMachine.Proofs.Machine.Outcome
import TapeMachine.Ring

namespace TapeMachine.Ring

variable {fuel : Nat} {program : List Int}

/-- A stage on its own: a fresh machine that is given its phase and the signal, if there is one,
runs until it rests and hands on the last value that it has emitted. -/
def stage (fuel : Nat) (program : List Int) (signal : Option Int) (phase : Int) :
    Except RingError (Option Int) :=
  match Machine.run (.fuel fuel) (Machine.load program (phase :: signal.toList)) with
  | .ok () rested => .ok rested.outputs.toList.getLast?
  | .error interruption _ => .error (.interrupted interruption)

theorem feed?_phased (program : List Int) (phase : Int) (signal : Option Int) :
    (phased program phase).feed? signal = Machine.load program (phase :: signal.toList) := by
  cases signal <;> rfl

def handed {σ : Type} : EStateM.Result Interruption σ Handover → Except RingError (Option Int)
  | .ok handover _ => .ok handover.signal
  | .error interruption _ => .error (.interrupted interruption)

theorem handed_turn_phased (phase : Int) (signal : Option Int) :
    handed ((phased program phase).turn fuel signal) = stage fuel program signal phase := by
  have hlive : (phased program phase).status ≠ .terminated := nofun
  rw [Machine.turn, if_neg hlive, feed?_phased, stage]
  cases Machine.run (.fuel fuel) (Machine.load program (phase :: signal.toList)) with
  | ok _ rested => rfl
  | error interruption rested => rfl

theorem handed_pass_cons (machine : Machine) (machines : List Machine) (signal : Option Int) :
    handed (pass fuel signal (machine :: machines)) =
      handed (machine.turn fuel signal) >>= fun signal => handed (pass fuel signal machines) := by
  rw [pass]
  cases machine.turn fuel signal with
  | error interruption next => rfl
  | ok given next =>
    change _ = handed (pass fuel given.signal machines)
    dsimp only
    cases pass fuel given.signal machines with
    | error interruption left => rfl
    | ok last left => rfl

theorem handed_pass_phased (phases : List Int) (signal : Option Int) :
    handed (pass fuel signal (phases.map (phased program))) =
      phases.foldlM (stage fuel program) signal := by
  induction phases generalizing signal with
  | nil => rfl
  | cons phase phases ih =>
    rw [List.map_cons, handed_pass_cons, handed_turn_phased, List.foldlM_cons]
    exact congrArg (stage fuel program signal phase >>= ·) (funext ih)

theorem produce_linear {phases : List Int} (hne : phases ≠ []) (fuel : Nat) (program : List Int)
    (seed : Int) :
    produce .linear fuel program phases seed = phases.foldlM (stage fuel program) (some seed) := by
  obtain ⟨phase, phases, rfl⟩ := List.exists_cons_of_ne_nil hne
  rw [← handed_pass_phased, produce, ofPhases]
  · simp only [pipeline, round]
    cases pass fuel (some seed) ((phase :: phases).map (phased program)) with
    | error interruption left => rfl
    | ok given left => rfl
  · exact nofun

theorem pipeline_singleton_eq_ok {phase seed : Int} {signal : Option Int} {final : Ring} :
    pipeline fuel seed ⟨[phased program phase]⟩ = .ok signal final ↔
      ∃ rested, Machine.run (.fuel fuel) (Machine.load program [phase, seed]) = .ok () rested ∧
        signal = rested.outputs.toList.getLast? ∧
        final = ⟨[{ rested with outputs := .empty }]⟩ := by
  have hlive : (phased program phase).status ≠ .terminated := nofun
  have hfed : (phased program phase).feed? (some seed) = Machine.load program [phase, seed] := rfl
  rw [pipeline, round, pass, Machine.turn, if_neg hlive, hfed]
  cases Machine.run (.fuel fuel) (Machine.load program [phase, seed]) with
  | error interruption rested => simp
  | ok _ rested => simp [Machine.takeOutputs, pass, eq_comm]

/-- With any fuel a pipeline comes to what its stages come to, one after the other, each on its own.
Behind a pipeline that returns a value it goes on like a pipeline that starts with that value. The
machine of a single phase halts exactly if the execution with the phase and the seed as inputs gives
outputs, and then the pipeline returns the last one. -/
theorem pipeline_composed {phases : List Int} (hne : phases ≠ []) (fuel : Nat)
    (program : List Int) (seed : Int) :
    produce .linear fuel program phases seed = phases.foldlM (stage fuel program) (some seed) ∧
    (∀ more value, more ≠ [] → produce .linear fuel program phases seed = .ok (some value) →
      produce .linear fuel program (phases ++ more) seed =
        produce .linear fuel program more value) ∧
    ∀ phase,
      (∃ signal final, pipeline fuel seed ⟨[phased program phase]⟩ = .ok signal final ∧
        final.finished = true) ↔
      ∃ outputs, Machine.execute program [phase, seed] (.fuel fuel) [] = .ok outputs ∧
        produce .linear fuel program [phase] seed = .ok outputs.getLast? := by
  refine ⟨produce_linear hne fuel program seed, ?_, ?_⟩
  · intro more value hmore hvalue
    rw [produce_linear hne] at hvalue
    have hwhole : phases ++ more ≠ [] := List.append_ne_nil_of_left_ne_nil hne more
    calc produce .linear fuel program (phases ++ more) seed
        = (phases ++ more).foldlM (stage fuel program) (some seed) :=
          produce_linear hwhole fuel program seed
      _ = phases.foldlM (stage fuel program) (some seed) >>=
            more.foldlM (stage fuel program) := List.foldlM_append
      _ = more.foldlM (stage fuel program) (some value) := by rw [hvalue]; rfl
      _ = produce .linear fuel program more value := (produce_linear hmore fuel program value).symm
  · intro phase
    simp only [pipeline_singleton_eq_ok, Machine.execute_eq_ok]
    constructor
    · rintro ⟨_, _, ⟨rested, hrun, rfl, rfl⟩, hfinished⟩
      have hterminated : rested.status = .terminated := of_decide_eq_true hfinished
      have hpipeline := pipeline_singleton_eq_ok.2 ⟨rested, hrun, rfl, rfl⟩
      refine ⟨_, ⟨rested, hrun, hterminated, rfl⟩, ?_⟩
      simp only [produce, ofPhases, List.map_singleton, hpipeline]
    · rintro ⟨_, ⟨rested, hrun, hterminated, rfl⟩, -⟩
      exact ⟨_, _, ⟨rested, hrun, rfl, rfl⟩, decide_eq_true hterminated⟩

-- Emits 7 and then the sum of its phase and the signal.
def summing : List Int := [3, 13, 3, 14, 1, 13, 14, 14, 104, 7, 4, 14, 99]

theorem pipeline_composed_summing :
    ([2, -5] : List Int) ≠ [] ∧ ([3] : List Int) ≠ [] ∧
    produce .linear 6 summing [2, -5] 4 = .ok (some 1) ∧
    produce .linear 6 summing ([2, -5] ++ [3]) 4 = produce .linear 6 summing [3] 1 ∧
    Machine.execute summing [3, 1] (.fuel 6) [] = .ok [7, 4] ∧
    produce .linear 6 summing [3] 1 = .ok (some 4) ∧
    ∃ signal final, pipeline 6 1 ⟨[phased summing 3]⟩ = .ok signal final ∧
      final.finished = true := by
  have hvalue : produce .linear 6 summing [2, -5] 4 = .ok (some 1) := by decide +kernel
  have hexecute : Machine.execute summing [3, 1] (.fuel 6) [] = .ok [7, 4] := by decide +kernel
  have hlast : produce .linear 6 summing [3] 1 = .ok (some 4) := by decide +kernel
  have hfirst : ([2, -5] : List Int) ≠ [] := by decide
  have hsecond : ([3] : List Int) ≠ [] := by decide
  refine ⟨hfirst, hsecond, hvalue, ?_, hexecute, hlast, ?_⟩
  · exact (pipeline_composed hfirst 6 summing 4).2.1 [3] 1 hsecond hvalue
  · exact ((pipeline_composed hsecond 6 summing 1).2.2 3).2 ⟨_, hexecute, hlast⟩

end TapeMachine.Ring
