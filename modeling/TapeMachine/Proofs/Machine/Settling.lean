import TapeMachine.Machine.Run
import TapeMachine.Proofs.Computation

/-!
Runs without a limit, told without fuel. A machine settles in what some amount of fuel is enough to
reach; it settles in one way or not at all, and every step of a running machine leads to a machine
that settles in the same way.
-/

namespace TapeMachine

namespace Machine

/-- What a run without a limit comes to. -/
def Settles (machine : Machine) : EStateM.Result Fault Machine Unit → Prop
  | .ok () next => ∃ fuel, run (.fuel fuel) machine = .ok () next
  | .error fault next => ∃ fuel, run (.fuel fuel) machine = .error (.fault fault) next

theorem run_eq_ok {allowance : Allowance} {machine next : Machine} :
    run allowance machine = .ok () next ↔
      advance allowance.steps machine = .ok () next ∧ next.status ≠ .running := by
  simp only [run]
  split
  · next hadvance => simp [hadvance]
  · next last hadvance =>
    rw [hadvance]
    split
    · next hrunning =>
      constructor
      · intro h
        cases h
      · rintro ⟨h, hnext⟩
        cases h
        exact absurd hrunning hnext
    · next hrests =>
      constructor
      · intro h
        cases h
        exact ⟨rfl, hrests⟩
      · rintro ⟨h, -⟩
        cases h
        rfl

theorem run_eq_fault {allowance : Allowance} {machine next : Machine} {fault : Fault} :
    run allowance machine = .error (.fault fault) next ↔
      advance allowance.steps machine = .error fault next := by
  simp only [run]
  split
  · next hadvance => simp [hadvance]
  · next last hadvance =>
    rw [hadvance]
    split
    · cases allowance <;> simp [Allowance.exceeded]
    · simp

theorem advance_of_rests {machine : Machine} (h : machine.status ≠ .running) (n : Nat) :
    advance n machine = .ok () machine := by
  cases n with
  | zero => rfl
  | succ n => simp only [advance, h, if_false]

theorem advance_succ {machine : Machine} (h : machine.status = .running) (n : Nat) :
    advance (n + 1) machine =
      match step machine with
      | .ok () next => advance n next
      | .error fault next => .error fault next :=
  if_pos h

theorem advance_add (m n : Nat) (machine : Machine) :
    advance (m + n) machine =
      match advance m machine with
      | .ok () next => advance n next
      | .error fault next => .error fault next := by
  induction m generalizing machine with
  | zero => rw [Nat.zero_add, advance]
  | succ m ih =>
    by_cases hrunning : machine.status = .running
    · rw [Nat.succ_add, advance_succ hrunning, advance_succ hrunning]
      cases step machine with
      | error fault next => rfl
      | ok _ next => exact ih next
    · rw [advance_of_rests hrunning, advance_of_rests hrunning]
      exact (advance_of_rests hrunning n).symm

theorem advance_of_step {machine next : Machine} (h : machine.status = .running)
    (hstep : step machine = .ok () next) (n : Nat) : advance (n + 1) machine = advance n next := by
  rw [advance_succ h, hstep]

theorem advance_succ_cases {machine last : Machine} {n : Nat}
    (h : advance (n + 1) machine = .ok () last) :
    (machine.status ≠ .running ∧ last = machine) ∨
    ∃ next, machine.status = .running ∧ step machine = .ok () next ∧
      advance n next = .ok () last := by
  by_cases hrunning : machine.status = .running
  · rw [advance_succ hrunning] at h
    cases hstep : step machine with
    | error fault next =>
      rw [hstep] at h
      cases h
    | ok _ next =>
      rw [hstep] at h
      exact .inr ⟨next, hrunning, rfl, h⟩
  · rw [advance_of_rests hrunning] at h
    cases h
    exact .inl ⟨hrunning, rfl⟩

@[elab_as_elim]
theorem advance_induction {last : Machine}
    {motive : ∀ (n : Nat) (machine : Machine), advance n machine = .ok () last → Prop}
    (rests : ∀ n h, motive n last h)
    (steps : ∀ n machine h next hnext, machine.status = .running →
      step machine = .ok () next → motive n next hnext → motive (n + 1) machine h)
    {n : Nat} {machine : Machine} (h : advance n machine = .ok () last) : motive n machine h := by
  induction n generalizing machine with
  | zero =>
    cases h
    exact rests 0 rfl
  | succ n ih =>
    obtain ⟨-, rfl⟩ | ⟨next, hrunning, hstep, hnext⟩ := advance_succ_cases h
    · exact rests (n + 1) h
    · exact steps n machine h next hnext hrunning hstep (ih hnext)

theorem run_fuel_mono {machine next : Machine} {m n : Nat} (hle : m ≤ n)
    (h : run (.fuel m) machine = .ok () next) : run (.fuel n) machine = .ok () next := by
  obtain ⟨k, rfl⟩ := Nat.exists_eq_add_of_le hle
  obtain ⟨hadvance, hrests⟩ := run_eq_ok.1 h
  refine run_eq_ok.2 ⟨?_, hrests⟩
  simp only [Allowance.steps] at hadvance ⊢
  rw [advance_add, hadvance]
  exact advance_of_rests hrests k

section

variable {machine next : Machine} {result : EStateM.Result Fault Machine Unit}

theorem settles_iff :
    machine.Settles result ↔
      ∃ n, advance n machine = result ∧ ∀ last, result = .ok () last → last.status ≠ .running := by
  cases result with
  | ok _ last =>
    simp only [Settles, run_eq_ok, Allowance.steps, EStateM.Result.ok.injEq, true_and,
      forall_eq']
  | error fault last =>
    simp only [Settles, run_eq_fault, Allowance.steps, reduceCtorEq, false_implies, implies_true,
      and_true]

theorem settles_of_rests (h : machine.status ≠ .running) :
    machine.Settles result ↔ result = .ok () machine := by
  simp only [settles_iff, advance_of_rests h]
  constructor
  · rintro ⟨_, rfl, -⟩
    rfl
  · rintro rfl
    refine ⟨0, rfl, ?_⟩
    rintro last heq
    cases heq
    exact h

theorem settles_of_fault {fault : Fault} (h : machine.status = .running)
    (hstep : step machine = .error fault next) :
    machine.Settles result ↔ result = .error fault next := by
  rw [settles_iff]
  constructor
  · rintro ⟨n, rfl, hrests⟩
    cases n with
    | zero => exact absurd h (hrests machine rfl)
    | succ n => rw [advance_succ h, hstep]
  · rintro rfl
    exact ⟨1, by rw [advance_succ h, hstep], fun last heq => by cases heq⟩

theorem settles_of_step (h : machine.status = .running) (hstep : step machine = .ok () next) :
    machine.Settles result ↔ next.Settles result := by
  rw [settles_iff, settles_iff]
  constructor
  · rintro ⟨n, rfl, hrests⟩
    cases n with
    | zero => exact absurd h (hrests machine rfl)
    | succ n =>
      simp only [advance_succ h, hstep] at hrests ⊢
      exact ⟨n, rfl, hrests⟩
  · rintro ⟨n, rfl, hrests⟩
    refine ⟨n + 1, ?_, hrests⟩
    rw [advance_succ h, hstep]

theorem settles_of_next (h : machine.status = .running)
    (hnext : ∀ next, step machine = .ok () next → ∃ result, next.Settles result) :
    ∃ result, machine.Settles result := by
  cases hstep : step machine with
  | error fault next => exact ⟨_, (settles_of_fault h hstep).2 rfl⟩
  | ok _ next =>
    obtain ⟨result, hresult⟩ := hnext next hstep
    exact ⟨result, (settles_of_step h hstep).2 hresult⟩

theorem settles_congr {machine' : Machine} (h : machine.status = .running)
    (h' : machine'.status = .running) (hstep : step machine = step machine') :
    machine.Settles result ↔ machine'.Settles result := by
  cases hnext : step machine' with
  | error fault next =>
    rw [hnext] at hstep
    rw [settles_of_fault h hstep, settles_of_fault h' hnext]
  | ok _ next =>
    rw [hnext] at hstep
    rw [settles_of_step h hstep, settles_of_step h' hnext]

@[elab_as_elim]
theorem Settles.induction {motive : ∀ machine : Machine, machine.Settles result → Prop}
    (rests : ∀ machine h, machine.status ≠ .running → result = .ok () machine → motive machine h)
    (faults : ∀ machine h fault next, machine.status = .running →
      step machine = .error fault next → result = .error fault next → motive machine h)
    (steps : ∀ machine h next hnext, machine.status = .running →
      step machine = .ok () next → motive next hnext → motive machine h)
    {machine : Machine} (h : machine.Settles result) : motive machine h := by
  obtain ⟨n, hadvance, hrests⟩ := settles_iff.1 h
  induction n generalizing machine with
  | zero => exact rests machine h (hrests machine hadvance.symm) hadvance.symm
  | succ n ih =>
    by_cases hrunning : machine.status = .running
    · rw [advance_succ hrunning] at hadvance
      cases hstep : step machine with
      | error fault next =>
        exact faults machine h fault next hrunning hstep ((settles_of_fault hrunning hstep).1 h)
      | ok _ next =>
        rw [hstep] at hadvance
        have hnext := (settles_of_step hrunning hstep).1 h
        exact steps machine h next hnext hrunning hstep (ih hnext hadvance)
    · exact rests machine h hrunning ((settles_of_rests hrunning).1 h)

theorem Settles.unique {result' : EStateM.Result Fault Machine Unit}
    (h : machine.Settles result) (h' : machine.Settles result') : result = result' := by
  induction h using Settles.induction with
  | rests machine _ hrests heq => rw [heq, (settles_of_rests hrests).1 h']
  | faults machine _ fault next hrunning hstep heq =>
    rw [heq, (settles_of_fault hrunning hstep).1 h']
  | steps machine _ next _ hrunning hstep ih => exact ih ((settles_of_step hrunning hstep).1 h')

end

end Machine

end TapeMachine
