import TapeMachine.Proofs.Machine.Budget
import TapeMachine.Proofs.Machine.Replay

namespace TapeMachine

def View.Faults (view : View) (fault : Fault) : Prop :=
  view.pending = .error fault ∨ ∃ i, view.pending = .ok i ∧ view.outcome i = .error fault

theorem Instruction.reception_error_of_none {base : Int} {destination : Operand Int} {fault : Fault}
    (h : reception base none destination = .error fault) (next? : Option Int) :
    reception base next? destination = .error fault := by
  simp only [reception] at h ⊢
  cases hc : destination.address base with
  | error cause =>
    simp only [hc] at h ⊢
    exact h
  | ok address =>
    simp only [hc] at h
    cases h

namespace Machine

theorem faults_iff {machine : Machine} {fault : Fault} (h : machine.status = .running) :
    machine.view.Faults fault ↔ ∃ next, step machine = .error fault next := by
  have hlive : machine.status ≠ .terminated := by simp [h]
  constructor
  · rintro (hi | ⟨i, hi, hfault⟩)
    · exact ⟨_, step_of_pending_error hlive hi⟩
    · exact ⟨_, step_of_outcome_error hlive hi hfault⟩
  · rintro ⟨next, hstep⟩
    obtain ⟨hi, -⟩ | ⟨i, hi, hfault, -⟩ := step_error_cases hstep
    · exact .inl hi
    · exact .inr ⟨i, hi, hfault⟩

theorem outcome_stock_error {machine : Machine} {i : Instruction Int} {fault : Fault}
    (harity : i.operands.length = i.op.arity) (h : machine.outcome i = .error fault)
    (values : List Int) : (machine.stock values).outcome i = .error fault := by
  by_cases hop : i.op = .input
  · obtain ⟨op, operands⟩ := i
    cases hop
    obtain ⟨destination, rfl⟩ := List.length_eq_one_iff.1 harity
    simp only [outcome, Instruction.effect] at h ⊢
    cases hhead : machine.inputs.head? with
    | some value =>
      rw [head?_stock hhead, ← hhead]
      exact h
    | none =>
      rw [hhead] at h
      exact Instruction.reception_error_of_none h _
  · simp only [outcome] at h ⊢
    rw [← h]
    exact Instruction.effect_of_ne_input hop _ _ _ _

theorem faults_stock {machine : Machine} {fault : Fault} (h : machine.view.Faults fault)
    (values : List Int) : (machine.stock values).view.Faults fault := by
  obtain hi | ⟨i, hi, hfault⟩ := h
  · exact .inl hi
  · exact .inr ⟨i, hi, outcome_stock_error (Instruction.length_of_standing hi) hfault values⟩

theorem run_error_cases {a : Allowance} {machine next : Machine} {interruption : Interruption}
    (h : run a machine = .error interruption next) :
    (∃ fault, interruption = .fault fault ∧ advance a.steps machine = .error fault next) ∨
      interruption = a.exceeded ∧ advance a.steps machine = .ok () next ∧
        next.status = .running := by
  cases hadvance : advance a.steps machine with
  | error fault last =>
    rw [run_eq_fault.2 hadvance] at h
    cases h
    exact .inl ⟨fault, rfl, rfl⟩
  | ok _ last =>
    by_cases hrunning : last.status = .running
    · rw [run_eq_exceeded.2 ⟨hadvance, hrunning⟩] at h
      cases h
      exact .inr ⟨rfl, rfl, hrunning⟩
    · rw [run_eq_ok.2 ⟨hadvance, hrunning⟩] at h
      cases h

theorem steps_of_step {machine next : Machine} (h : machine.status = .running)
    (hstep : step machine = .ok () next) (hnext : next.status ≠ .awaitingInput) :
    next.steps = machine.steps + 1 := by
  obtain ⟨i, effect, -, -, rfl⟩ := step_ok_of_running h hstep
  rw [steps_after, if_neg hnext]

theorem steps_of_wait {machine next : Machine} (h : machine.status = .running)
    (hstep : step machine = .ok () next) (hnext : next.status = .awaitingInput) :
    next.steps = machine.steps := by
  obtain ⟨i, effect, -, -, rfl⟩ := step_ok_of_running h hstep
  rw [steps_after, if_pos hnext]

theorem steps_le_of_advance {machine next : Machine} {n : Nat}
    (h : advance n machine = .ok () next) : next.steps ≤ machine.steps + n := by
  induction h using advance_induction with
  | rests n h => exact Nat.le_add_right _ _
  | steps n machine h between _ hrunning hstep ih =>
    by_cases hbetween : between.status = .awaitingInput
    · rw [steps_of_wait hrunning hstep hbetween] at ih
      omega
    · rw [steps_of_step hrunning hstep hbetween] at ih
      omega

theorem lt_of_advance_error {machine next last : Machine} {fault : Fault} {m k : Nat}
    (h : advance m machine = .error fault next) (hk : advance k machine = .ok () last) : k < m := by
  by_contra hle
  obtain ⟨d, rfl⟩ := Nat.exists_eq_add_of_le (Nat.le_of_not_lt hle)
  rw [advance_add, h] at hk
  cases hk

theorem advance_of_terminated {machine last : Machine} {n : Nat}
    (h : advance n machine = .ok () last) (hlast : last.status = .terminated) :
    ∃ k, last.steps = machine.steps + k ∧ advance k machine = .ok () last := by
  induction h using advance_induction with
  | rests n h => exact ⟨0, rfl, rfl⟩
  | steps n machine h between hbetween hrunning hstep ih =>
    have hawake : between.status ≠ .awaitingInput := by
      intro hawaiting
      rw [advance_of_rests (by simp [hawaiting])] at hbetween
      cases hbetween
      rw [hlast] at hawaiting
      cases hawaiting
    obtain ⟨k, hsteps, hk⟩ := ih
    refine ⟨k + 1, ?_, ?_⟩
    · rw [hsteps, steps_of_step hrunning hstep hawake]
      omega
    · rw [advance_of_step hrunning hstep, hk]

theorem exists_of_awaiting {machine next : Machine} {n : Nat}
    (h : advance n machine = .ok () next) (hawake : machine.status ≠ .awaitingInput)
    (hnext : next.status = .awaitingInput) :
    ∃ k before, k < n ∧ advance k machine = .ok () before ∧ before.status = .running ∧
      step before = .ok () next := by
  induction n generalizing machine with
  | zero =>
    cases h
    exact absurd hnext hawake
  | succ n ih =>
    obtain ⟨-, rfl⟩ | ⟨between, hrunning, hstep, hlast⟩ := advance_succ_cases h
    · exact absurd hnext hawake
    · by_cases hbetween : between.status = .awaitingInput
      · rw [advance_of_rests (by simp [hbetween])] at hlast
        cases hlast
        exact ⟨0, machine, Nat.succ_pos n, rfl, hrunning, hstep⟩
      · obtain ⟨k, before, hlt, hbefore, hrest⟩ := ih hlast hbetween
        refine ⟨k + 1, before, Nat.succ_lt_succ hlt, ?_, hrest⟩
        rw [advance_of_step hrunning hstep, hbefore]

theorem starved_of_advance {machine next : Machine} {n : Nat}
    (h : advance n machine = .ok () next) (hawake : machine.status ≠ .awaitingInput)
    (hnext : next.status = .awaitingInput) : next.Starved := by
  obtain ⟨k, before, -, -, hrunning, hstep⟩ := exists_of_awaiting h hawake hnext
  exact starved_of_step hrunning hstep hnext

section

variable {program inputs : List Int} {n : Nat} {last : Machine}

theorem execute_eq_ok {a : Allowance} {outputs : List Int} :
    execute program inputs a [] = .ok outputs ↔
      ∃ last, run a (load program inputs) = .ok () last ∧ last.status = .terminated ∧
        outputs = last.outputs.toList := by
  change results a (load program inputs) = .ok outputs ↔ _
  rw [results]
  cases hrun : run a (load program inputs) with
  | error interruption last => simp
  | ok _ last =>
    have hrests := (run_eq_ok.1 hrun).2
    cases hstatus : last.status with
    | running => exact absurd hstatus hrests
    | awaitingInput => simp [hstatus]
    | terminated => simp [hstatus, eq_comm]

theorem execute_of_terminated (h : advance n (load program inputs) = .ok () last)
    (hlast : last.status = .terminated) :
    execute program inputs (.fuel n) [] = .ok last.outputs.toList := by
  have hrun : run (.fuel n) (load program inputs) = .ok () last :=
    run_eq_ok.2 ⟨h, by simp [hlast]⟩
  exact execute_eq_ok.2 ⟨last, hrun, hlast, rfl⟩

theorem execute_of_awaiting (h : advance n (load program inputs) = .ok () last)
    (hlast : last.status = .awaitingInput) :
    execute program inputs (.fuel n) [] = .error (.inputMissing last.pointer) := by
  have hrun : run (.fuel n) (load program inputs) = .ok () last :=
    run_eq_ok.2 ⟨h, by simp [hlast]⟩
  change results (.fuel n) (load program inputs) = _
  simp only [results, hrun, hlast, if_true]

theorem execute_of_fault {fault : Fault} (h : advance n (load program inputs) = .error fault last) :
    execute program inputs (.fuel n) [] = .error (.fault fault) := by
  have hrun : run (.fuel n) (load program inputs) = .error (.fault fault) last :=
    run_eq_fault.2 h
  change results (.fuel n) (load program inputs) = _
  simp only [results, hrun]

theorem execute_of_running {a : Allowance} (hle : a.steps ≤ n)
    (h : advance n (load program inputs) = .ok () last) (hlast : last.status = .running) :
    execute program inputs a [] = .error a.exceeded := by
  obtain ⟨d, rfl⟩ := Nat.exists_eq_add_of_le hle
  rw [advance_add] at h
  cases hbetween : advance a.steps (load program inputs) with
  | error fault between =>
    rw [hbetween] at h
    cases h
  | ok _ between =>
    rw [hbetween] at h
    have hrun : run a (load program inputs) = .error a.exceeded between :=
      run_eq_exceeded.2 ⟨hbetween, running_of_advance h hlast⟩
    change results a (load program inputs) = _
    simp only [results, hrun]

end

theorem terminated_iff_of_core {machine reached : Machine}
    (h : machine.view.core = reached.view.core) :
    machine.status = .terminated ↔ reached.status = .terminated :=
  View.core_status_eq_terminated.symm.trans
    ((Eq.congr_left (congrArg View.status h)).trans View.core_status_eq_terminated)

theorem steps_of_core {machine reached : Machine} (h : machine.view.core = reached.view.core) :
    machine.steps = reached.steps :=
  congrArg View.steps h

namespace Replays

variable {program fed emitted : List Int} {machine : Machine}

theorem execute_of_terminated (h : machine.Replays program fed emitted)
    (hterminated : machine.status = .terminated) :
    execute program fed (.fuel machine.steps) [] = .ok emitted := by
  obtain ⟨n, reached, hadvance, hawake, rfl, hcore⟩ := h
  have hreached := (terminated_iff_of_core hcore).1 hterminated
  obtain ⟨k, hsteps, hk⟩ := advance_of_terminated hadvance hreached
  have hcount : machine.steps = k :=
    ((steps_of_core hcore).trans hsteps).trans (Nat.zero_add k)
  rw [hcount]
  exact Machine.execute_of_terminated hk hreached

theorem exists_running (h : machine.Replays program fed emitted)
    (hlive : machine.status ≠ .terminated) :
    ∃ reached, advance machine.steps (load program fed) = .ok () reached ∧
      reached.status = .running ∧ machine.view.core = reached.view.core := by
  obtain ⟨n, reached, hadvance, hawake, -, hcore⟩ := h
  have hreached : reached.status = .running := by
    cases hstatus : reached.status with
    | running => rfl
    | awaitingInput => exact absurd hstatus hawake
    | terminated => exact absurd ((terminated_iff_of_core hcore).2 hstatus) hlive
  have hcount : machine.steps = n :=
    ((steps_of_core hcore).trans (steps_of_advance_running hadvance hreached)).trans
      (Nat.zero_add n)
  rw [hcount]
  exact ⟨reached, hadvance, hreached, hcore⟩

theorem execute_of_starved (h : machine.Replays program fed emitted)
    (hawaiting : machine.status = .awaitingInput) (hstarved : machine.Starved) :
    execute program fed (.fuel (machine.steps + 1)) [] =
      .error (.inputMissing machine.pointer) := by
  obtain ⟨reached, hadvance, hreached, hcore⟩ := h.exists_running (by simp [hawaiting])
  obtain ⟨hinputs, ⟨destination, hi, hmode⟩, -⟩ := hstarved
  have hlive : reached.status ≠ .terminated := by simp [hreached]
  have hi' : reached.pending = .ok ⟨.input, [destination]⟩ :=
    (congrArg View.pending hcore).symm.trans hi
  have hinputs' : reached.inputs = .empty := (congrArg View.inputs hcore).symm.trans hinputs
  have hpointer : reached.pointer = machine.pointer := (congrArg View.pointer hcore).symm
  cases hc : destination.address reached.base with
  | error fault => exact absurd (mode_of_address_error hc) hmode
  | ok address =>
    have hstep := step_of_empty hlive hi' hc (by rw [hinputs']; rfl)
    have hlast : advance (machine.steps + 1) (load program fed) =
        .ok () (reached.after ⟨.input, [destination]⟩ .wait) := by
      rw [advance_add, hadvance]
      exact advance_of_step hreached hstep 0
    have hmissing := execute_of_awaiting hlast rfl
    rw [← hpointer]
    exact hmissing

theorem execute_of_faults {fault : Fault} (h : machine.Replays program fed emitted)
    (hrunning : machine.status = .running) (hfaults : machine.view.Faults fault) :
    execute program fed (.fuel (machine.steps + 1)) [] = .error (.fault fault) := by
  obtain ⟨reached, hadvance, hreached, hcore⟩ := h.exists_running (by simp [hrunning])
  have hcause : reached.view.core.Faults fault := by
    rw [← hcore]
    exact hfaults
  obtain ⟨next, hstep⟩ := (faults_iff hreached).1 hcause
  have hlast : advance (machine.steps + 1) (load program fed) = .error fault next := by
    rw [advance_add, hadvance]
    simp only [advance_succ hreached, hstep]
  exact execute_of_fault hlast

theorem execute_of_running {a : Allowance} (h : machine.Replays program fed emitted)
    (hrunning : machine.status = .running) (hle : a.steps ≤ machine.steps) :
    execute program fed a [] = .error a.exceeded := by
  obtain ⟨reached, hadvance, hreached, -⟩ := h.exists_running (by simp [hrunning])
  exact Machine.execute_of_running hle hadvance hreached

end Replays

def Executes (program inputs : List Int) (result : Except Interruption (List Int)) : Prop :=
  ∃ fuel, execute program inputs (.fuel fuel) [] = result ∧ result ≠ .error .outOfFuel

section

variable {program inputs : List Int} {result result' : Except Interruption (List Int)}

theorem Executes.eventually (h : Executes program inputs result) :
    ∃ n, ∀ fuel, n ≤ fuel → execute program inputs (.fuel fuel) [] = result := by
  obtain ⟨n, rfl, hends⟩ := h
  exact ⟨n, fun fuel hle => execute_eq_of_le (a := .fuel n) (b := .fuel fuel) hle hends⟩

theorem Executes.unique (h : Executes program inputs result)
    (h' : Executes program inputs result') : result = result' := by
  obtain ⟨m, hm⟩ := h.eventually
  obtain ⟨n, hn⟩ := h'.eventually
  rw [← hm (max m n) (Nat.le_max_left m n), hn (max m n) (Nat.le_max_right m n)]

end

end Machine

end TapeMachine
