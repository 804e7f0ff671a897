import TapeMachine.Proofs.Machine.Status

namespace TapeMachine

namespace Machine

def stepTimes : (n : Nat) → Action Unit
  | 0, machine => .ok () machine
  | n + 1, machine =>
    match step machine with
    | .ok () next => stepTimes n next
    | .error fault next => .error fault next

theorem stepTimes_of_step {machine : Machine} (h : step machine = .ok () machine) (n : Nat) :
    stepTimes n machine = .ok () machine := by
  induction n with
  | zero => rfl
  | succ n ih =>
    rw [stepTimes, h]
    exact ih

theorem step_of_rested {machine next : Machine} (h : machine.status = .running)
    (hstep : step machine = .ok () next) (hnext : next.status ≠ .running) :
    step next = .ok () next := by
  cases hstatus : next.status with
  | running => exact absurd hstatus hnext
  | awaitingInput => exact (starved_of_step h hstep hstatus).step hstatus
  | terminated => exact step_of_terminated hstatus

theorem running_of_advance {n : Nat} {machine next : Machine}
    (h : advance n machine = .ok () next) (hnext : next.status = .running) :
    machine.status = .running := by
  by_contra hrests
  rw [advance_of_rests hrests] at h
  cases h
  exact hrests hnext

theorem advance_eq_ok_iff {n : Nat} {machine next : Machine} (hnext : next.status = .running) :
    advance n machine = .ok () next ↔
      machine.status = .running ∧ stepTimes n machine = .ok () next := by
  induction n generalizing machine with
  | zero =>
    constructor
    · intro h
      exact ⟨running_of_advance h hnext, h⟩
    · intro h
      exact h.2
  | succ n ih =>
    by_cases hrunning : machine.status = .running
    · rw [advance_succ hrunning, stepTimes]
      cases hstep : step machine with
      | error fault between => simp
      | ok _ between =>
        simp only [ih, hrunning, true_and, and_iff_right_iff_imp]
        intro htimes
        by_contra hrests
        rw [stepTimes_of_step (step_of_rested hrunning hstep hrests)] at htimes
        cases htimes
        exact hrests hnext
    · constructor
      · intro h
        exact absurd (running_of_advance h hnext) hrunning
      · intro h
        exact absurd h.1 hrunning

theorem steps_of_advance_running {n : Nat} {machine next : Machine}
    (h : advance n machine = .ok () next) (hnext : next.status = .running) :
    next.steps = machine.steps + n := by
  induction n generalizing machine with
  | zero =>
    cases h
    rfl
  | succ n ih =>
    obtain ⟨hrests, rfl⟩ | ⟨between, hrunning, hstep, hlast⟩ := advance_succ_cases h
    · exact absurd hnext hrests
    · rw [ih hlast, steps_of_step_ok hrunning hstep (running_of_advance hlast hnext)]
      omega

theorem run_eq_exceeded {a : Allowance} {machine next : Machine} :
    run a machine = .error a.exceeded next ↔
      advance a.steps machine = .ok () next ∧ next.status = .running := by
  rw [run]
  cases hadvance : advance a.steps machine with
  | error fault last => cases a <;> simp [Allowance.exceeded]
  | ok _ last =>
    by_cases hrunning : last.status = .running
    · simp only [hrunning, if_true, EStateM.Result.error.injEq, EStateM.Result.ok.injEq, true_and]
      constructor
      · rintro rfl
        exact ⟨rfl, hrunning⟩
      · intro h
        exact h.1
    · simp only [hrunning, if_false, reduceCtorEq, EStateM.Result.ok.injEq, true_and, false_iff,
        not_and]
      rintro rfl
      exact hrunning

theorem run_eq_of_le {a b : Allowance} {machine : Machine} (hle : a.steps ≤ b.steps)
    (h : ∀ next, run a machine ≠ .error a.exceeded next) : run b machine = run a machine := by
  obtain ⟨d, hd⟩ := Nat.exists_eq_add_of_le hle
  rw [run, run, hd, advance_add]
  cases hadvance : advance a.steps machine with
  | error fault last => rfl
  | ok _ last =>
    have hrests : last.status ≠ .running := fun hrunning =>
      h last (run_eq_exceeded.2 ⟨hadvance, hrunning⟩)
    simp only [advance_of_rests hrests, hrests, if_false]

theorem execute_eq_of_le {a b : Allowance} {program inputs : List Int}
    {patches : List (Int × Int)} (hle : a.steps ≤ b.steps)
    (h : execute program inputs a patches ≠ .error a.exceeded) :
    execute program inputs b patches = execute program inputs a patches := by
  rw [execute] at h
  rw [execute, execute]
  cases hload : loadPatched program inputs patches with
  | error fault => rfl
  | ok machine =>
    have hrun : run b machine = run a machine := by
      apply run_eq_of_le hle
      intro next hnext
      simp only [hload, results, hnext] at h
      exact h rfl
    simp only [results, hrun]

def withLimit (limit : Int) :
    EStateM.Result Interruption Machine Unit → EStateM.Result Interruption Machine Unit
  | .error (.limitReached _) machine => .error (.limitReached limit) machine
  | result => result

theorem run_limit_add {k : Nat} {machine between : Machine}
    (h : advance k machine = .ok () between) (m : Nat) :
    run (.limit ↑(k + m)) machine = withLimit ↑(k + m) (run (.limit m) between) := by
  simp only [run, Allowance.steps, Int.toNat_natCast, advance_add, h]
  cases advance m between with
  | error fault last => rfl
  | ok _ last =>
    by_cases hrunning : last.status = .running
    · simp only [hrunning, if_true]
      rfl
    · simp only [hrunning, if_false]
      rfl

/-- A run reaches its limit exactly when so many steps leave the machine running, and then the rest
of a longer run is the run that goes on there. A run that does not reach its limit comes to the same
with any other that is no smaller, and without any. -/
theorem limit_exact (machine : Machine) (k : Nat) :
    (∀ next, run (.limit k) machine = .error (.limitReached k) next ↔
      machine.status = .running ∧ stepTimes k machine = .ok () next ∧ next.status = .running) ∧
    (∀ next, run (.limit k) machine = .error (.limitReached k) next →
      next.steps = machine.steps + k ∧
      ∀ m : Nat, run (.limit ↑(k + m)) machine = withLimit ↑(k + m) (run (.limit m) next)) ∧
    ((∀ next, run (.limit k) machine ≠ .error (.limitReached k) next) →
      ∀ fuel, k ≤ fuel → run (.fuel fuel) machine = run (.limit k) machine) ∧
    ∀ program inputs patches,
      execute program inputs (.limit k) patches ≠ .error (.limitReached k) →
      (∀ n : Nat, k ≤ n → execute program inputs (.limit n) patches =
        execute program inputs (.limit k) patches) ∧
      ∀ fuel, k ≤ fuel → execute program inputs (.fuel fuel) patches =
        execute program inputs (.limit k) patches := by
  have hexceeded (next : Machine) :
      run (.limit k) machine = .error (.limitReached k) next ↔
        advance k machine = .ok () next ∧ next.status = .running :=
    run_eq_exceeded (a := .limit k)
  refine ⟨?_, ?_, ?_, ?_⟩
  · intro next
    rw [hexceeded, ← and_assoc]
    exact and_congr_left advance_eq_ok_iff
  · intro next hnext
    obtain ⟨hadvance, hrunning⟩ := (hexceeded next).1 hnext
    exact ⟨steps_of_advance_running hadvance hrunning, run_limit_add hadvance⟩
  · intro hrests fuel hle
    exact run_eq_of_le (a := .limit k) (b := .fuel fuel) hle hrests
  · intro program inputs patches hends
    constructor
    · intro n hle
      exact execute_eq_of_le (a := .limit k) (b := .limit n) hle hends
    · intro fuel hle
      exact execute_eq_of_le (a := .limit k) (b := .fuel fuel) hle hends

theorem limit_exact_waiting :
    run (.limit 1) (load [1101, 1, 2, 6, 3, 0] []) =
      .error (.limitReached 1)
        ⟨.ofList [1101, 1, 2, 6, 3, 0, 3], 4, 0, .running, 1, .empty, .empty⟩ ∧
    run (.limit 2) (load [1101, 1, 2, 6, 3, 0] []) =
      withLimit 2
        (run (.limit 1) ⟨.ofList [1101, 1, 2, 6, 3, 0, 3], 4, 0, .running, 1, .empty, .empty⟩) ∧
    run (.limit 2) (load [1101, 1, 2, 6, 3, 0] []) =
      .ok () ⟨.ofList [1101, 1, 2, 6, 3, 0, 3], 4, 0, .awaitingInput, 1, .empty, .empty⟩ ∧
    run (.fuel 9) (load [1101, 1, 2, 6, 3, 0] []) =
      run (.limit 2) (load [1101, 1, 2, 6, 3, 0] []) ∧
    execute [1101, 1, 2, 6, 3, 0] [] (.limit 2) [] = .error (.inputMissing 4) ∧
    execute [1101, 1, 2, 6, 3, 0] [] (.limit 5) [] =
      execute [1101, 1, 2, 6, 3, 0] [] (.limit 2) [] := by
  have hlimit : run (.limit 1) (load [1101, 1, 2, 6, 3, 0] []) =
      .error (.limitReached 1)
        ⟨.ofList [1101, 1, 2, 6, 3, 0, 3], 4, 0, .running, 1, .empty, .empty⟩ := by
    decide +kernel
  have hwaits : run (.limit 2) (load [1101, 1, 2, 6, 3, 0] []) =
      .ok () ⟨.ofList [1101, 1, 2, 6, 3, 0, 3], 4, 0, .awaitingInput, 1, .empty, .empty⟩ := by
    decide +kernel
  have hmissing : execute [1101, 1, 2, 6, 3, 0] [] (.limit 2) [] = .error (.inputMissing 4) := by
    decide +kernel
  obtain ⟨-, hreached, -, -⟩ := limit_exact (load [1101, 1, 2, 6, 3, 0] []) 1
  obtain ⟨-, -, hrests, hends⟩ := limit_exact (load [1101, 1, 2, 6, 3, 0] []) 2
  refine ⟨hlimit, (hreached _ hlimit).2 1, hwaits, hrests ?_ 9 (by decide), hmissing,
    (hends _ _ _ ?_).1 5 (by decide)⟩
  · intro next hnext
    cases hwaits.symm.trans hnext
  · intro hexhausted
    cases hmissing.symm.trans hexhausted

end Machine

end TapeMachine
