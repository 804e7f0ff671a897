import TapeMachine.Proofs.Machine.Settling
import TapeMachine.Ring

namespace TapeMachine

variable {fuel : Nat} {signal : Option Int}

namespace Machine

theorem turn_of_terminated {machine : Machine} (h : machine.status = .terminated) :
    turn fuel signal machine = .ok ⟨none, false⟩ machine :=
  if_pos h

theorem feed?_eq (machine : Machine) (signal : Option Int) :
    machine.feed? signal = machine.feedAll signal.toList := by
  cases signal <;> rfl

@[simp] theorem steps_feed? (machine : Machine) (signal : Option Int) :
    (machine.feed? signal).steps = machine.steps := by
  cases signal <;> rfl

@[simp] theorem outputs_feed? (machine : Machine) (signal : Option Int) :
    (machine.feed? signal).outputs = machine.outputs := by
  cases signal <;> rfl

def handover (rested : Machine) : Handover :=
  ⟨rested.outputs.toList.getLast?,
    !rested.outputs.toList.isEmpty || rested.status = .terminated⟩

theorem turn_eq_ok {machine next : Machine} {given : Handover}
    (h : machine.status ≠ .terminated) :
    turn fuel signal machine = .ok given next ↔
      ∃ rested, run (.fuel fuel) (machine.feed? signal) = .ok () rested ∧
        given = rested.handover ∧ next = { rested with outputs := .empty } := by
  rw [turn, if_neg h]
  cases run (.fuel fuel) (machine.feed? signal) with
  | error interruption rested => simp
  | ok _ rested =>
    simp only [takeOutputs, EStateM.Result.ok.injEq, true_and, exists_eq_left']
    exact ⟨fun ⟨h, h'⟩ => ⟨h.symm, h'.symm⟩, fun ⟨h, h'⟩ => ⟨h.symm, h'.symm⟩⟩

theorem turn_fuel_mono {machine next : Machine} {given : Handover} {n : Nat} (hle : fuel ≤ n)
    (h : turn fuel signal machine = .ok given next) : turn n signal machine = .ok given next := by
  by_cases hterminated : machine.status = .terminated
  · rw [turn_of_terminated hterminated] at h ⊢
    exact h
  · obtain ⟨rested, hrun, hgiven⟩ := (turn_eq_ok hterminated).1 h
    exact (turn_eq_ok hterminated).2 ⟨rested, run_fuel_mono hle hrun, hgiven⟩

end Machine

namespace Ring

theorem pass_cons_eq_ok {machine : Machine} {machines left : List Machine} {given : Handover} :
    pass fuel signal (machine :: machines) = .ok given left ↔
      ∃ first next last rest, machine.turn fuel signal = .ok first next ∧
        pass fuel first.signal machines = .ok last rest ∧
        given = ⟨last.signal, first.progressed || last.progressed⟩ ∧ left = next :: rest := by
  rw [pass]
  cases machine.turn fuel signal with
  | error interruption next => simp
  | ok first next =>
    cases hrest : pass fuel first.signal machines with
    | error interruption rest => simp [hrest]
    | ok last rest =>
      simp only [hrest, EStateM.Result.ok.injEq]
      constructor
      · rintro ⟨rfl, rfl⟩
        exact ⟨first, next, last, rest, ⟨rfl, rfl⟩, hrest, rfl, rfl⟩
      · rintro ⟨_, _, _, _, ⟨rfl, rfl⟩, hpass, rfl, rfl⟩
        rw [hrest] at hpass
        cases hpass
        exact ⟨rfl, rfl⟩

theorem pass_append_eq_ok {front back left : List Machine} {given : Handover} :
    pass fuel signal (front ++ back) = .ok given left ↔
      ∃ first next last rest, pass fuel signal front = .ok first next ∧
        pass fuel first.signal back = .ok last rest ∧
        given = ⟨last.signal, first.progressed || last.progressed⟩ ∧ left = next ++ rest := by
  induction front generalizing signal given left with
  | nil =>
    constructor
    · intro h
      exact ⟨⟨signal, false⟩, [], given, left, rfl, h, rfl, rfl⟩
    · rintro ⟨_, _, last, rest, ⟨⟩, hback, rfl, rfl⟩
      exact hback
  | cons machine front ih =>
    simp only [List.cons_append, pass_cons_eq_ok, ih]
    constructor
    · rintro ⟨first, next, _, _, hturn, ⟨middle, between, last, rest, hfront, hback, rfl, rfl⟩,
        rfl, rfl⟩
      exact ⟨_, _, last, rest, ⟨first, next, middle, between, hturn, hfront, rfl, rfl⟩, hback,
        by rw [Bool.or_assoc], rfl⟩
    · rintro ⟨_, _, last, rest, ⟨first, next, middle, between, hturn, hfront, rfl, rfl⟩, hback,
        rfl, rfl⟩
      exact ⟨first, next, _, _, hturn, ⟨middle, between, last, rest, hfront, hback, rfl, rfl⟩,
        by rw [Bool.or_assoc], rfl⟩

theorem pass_fuel_mono {machines left : List Machine} {given : Handover} {n : Nat}
    (hle : fuel ≤ n) (h : pass fuel signal machines = .ok given left) :
    pass n signal machines = .ok given left := by
  induction machines generalizing signal given left with
  | nil => exact h
  | cons machine machines ih =>
    obtain ⟨first, next, last, rest, hturn, hpass, hgiven⟩ := pass_cons_eq_ok.1 h
    exact pass_cons_eq_ok.2
      ⟨first, next, last, rest, Machine.turn_fuel_mono hle hturn, ih hpass, hgiven⟩

theorem round_eq_ok {ring next : Ring} {given : Handover} :
    round fuel signal ring = .ok given next ↔
      pass fuel signal ring.machines = .ok given next.machines := by
  rw [round]
  cases pass fuel signal ring.machines with
  | error interruption machines => simp
  | ok last machines =>
    simp only [EStateM.Result.ok.injEq]
    constructor
    · rintro ⟨rfl, rfl⟩
      exact ⟨rfl, rfl⟩
    · rintro ⟨rfl, rfl⟩
      exact ⟨rfl, rfl⟩

theorem round_ne_stalled (ring next : Ring) (n : Nat) :
    round fuel signal ring ≠ .error (.stalled n) next := by
  intro h
  rw [round] at h
  split at h <;> cases h

theorem round_fuel_mono {ring next : Ring} {given : Handover} {n : Nat} (hle : fuel ≤ n)
    (h : round fuel signal ring = .ok given next) : round n signal ring = .ok given next :=
  round_eq_ok.2 (pass_fuel_mono hle (round_eq_ok.1 h))

section

variable {left : Nat} {soFar : Feedback} {ring next : Ring} {given : Handover}

theorem terminated_of_finished {machine : Machine} (h : ring.finished = true)
    (hlast : ring.machines[ring.machines.length - 1]? = some machine) :
    machine.status = .terminated := by
  rw [finished, List.getLast?_eq_getElem?, hlast] at h
  exact of_decide_eq_true h

theorem circulate_of_finished (h : ring.finished = true) :
    circulate fuel left soFar signal ring = .ok soFar ring := by
  cases left with
  | zero => rw [circulate, if_pos h]
  | succ left => rw [circulate, if_pos h]

theorem circulate_of_progress (h : ring.finished = false)
    (hround : round fuel signal ring = .ok given next) (hprogress : given.progressed = true) :
    circulate fuel (left + 1) soFar signal ring =
      circulate fuel left (soFar.next given) given.signal next := by
  rw [circulate, if_neg (by simp [h])]
  simp only [hround, hprogress, if_true]

theorem circulate_of_stall (h : ring.finished = false)
    (hround : round fuel signal ring = .ok given next) (hprogress : given.progressed = false) :
    circulate fuel (left + 1) soFar signal ring = .error (.stalled (soFar.rounds + 1)) next := by
  rw [circulate, if_neg (by simp [h])]
  simp only [hround, hprogress, Bool.false_eq_true, if_false]
  rfl

end

@[elab_as_elim]
theorem circulate_induction {result : Feedback} {final : Ring}
    {motive : ∀ (left : Nat) (soFar : Feedback) (signal : Option Int) (ring : Ring),
      circulate fuel left soFar signal ring = .ok result final → Prop}
    (finished : ∀ left signal h, final.finished = true → motive left result signal final h)
    (progress : ∀ left soFar signal ring h given next hnext, ring.finished = false →
      round fuel signal ring = .ok given next → given.progressed = true →
      motive left (soFar.next given) given.signal next hnext →
      motive (left + 1) soFar signal ring h)
    {left : Nat} {soFar : Feedback} {signal : Option Int} {ring : Ring}
    (h : circulate fuel left soFar signal ring = .ok result final) :
    motive left soFar signal ring h := by
  have hrests {left : Nat} {soFar : Feedback} {signal : Option Int} {ring : Ring}
      (h : circulate fuel left soFar signal ring = .ok result final)
      (hfinished : ring.finished = true) : motive left soFar signal ring h := by
    have hend := h
    rw [circulate_of_finished hfinished] at hend
    cases hend
    exact finished left signal h hfinished
  induction left generalizing soFar signal ring with
  | zero =>
    cases hfinished : ring.finished with
    | true => exact hrests h hfinished
    | false =>
      rw [circulate, if_neg (by simp [hfinished])] at h
      cases h
  | succ left ih =>
    cases hfinished : ring.finished with
    | true => exact hrests h hfinished
    | false =>
      cases hround : round fuel signal ring with
      | error error next =>
        rw [circulate, if_neg (by simp [hfinished])] at h
        simp only [hround, reduceCtorEq] at h
      | ok given next =>
        cases hprogress : given.progressed with
        | true =>
          have hnext := h
          rw [circulate_of_progress hfinished hround hprogress] at hnext
          exact progress left soFar signal ring h given next hnext hfinished hround hprogress
            (ih hnext)
        | false =>
          rw [circulate_of_stall hfinished hround hprogress] at h
          cases h

theorem finished_of_circulate {result : Feedback} {left : Nat} {soFar : Feedback}
    {signal : Option Int} {ring final : Ring}
    (h : circulate fuel left soFar signal ring = .ok result final) : final.finished = true := by
  induction h using circulate_induction with
  | finished left signal _ hfinished => exact hfinished
  | progress left soFar signal ring _ given next _ _ _ _ ih => exact ih

theorem circulate_fuel_mono {result : Feedback} {left n m : Nat} {soFar : Feedback}
    {signal : Option Int} {ring final : Ring} (hfuel : fuel ≤ n) (hleft : left ≤ m)
    (h : circulate fuel left soFar signal ring = .ok result final) :
    circulate n m soFar signal ring = .ok result final := by
  induction h using circulate_induction generalizing m with
  | finished left signal _ hfinished => exact circulate_of_finished hfinished
  | progress left soFar signal ring _ given next _ hunfinished hround hprogress ih =>
    cases m with
    | zero => cases hleft
    | succ m =>
      rw [circulate_of_progress hunfinished (round_fuel_mono hfuel hround) hprogress]
      exact ih (Nat.le_of_succ_le_succ hleft)

/-- The rounds that a feedback run begins: what it has come to so far, the signal that it sends
round and the ring. -/
inductive Underway (seed : Int) (start : Ring) : Feedback → Option Int → Ring → Prop
  | start : Underway seed start ⟨none, 0⟩ (some seed) start
  | next {soFar : Feedback} {signal : Option Int} {ring next : Ring} {fuel : Nat}
      {given : Handover} :
      Underway seed start soFar signal ring → ring.finished = false →
      round fuel signal ring = .ok given next → given.progressed = true →
      Underway seed start (soFar.next given) given.signal next

theorem underway_of_stall {seed : Int} {start ring final : Ring} {soFar : Feedback} {left n : Nat}
    (hbegun : Underway seed start soFar signal ring)
    (h : circulate fuel left soFar signal ring = .error (.stalled n) final) :
    ∃ soFar signal ring given, Underway seed start soFar signal ring ∧ ring.finished = false ∧
      round fuel signal ring = .ok given final ∧ given.progressed = false := by
  induction left generalizing soFar signal ring with
  | zero =>
    rw [circulate] at h
    split at h <;> cases h
  | succ left ih =>
    cases hfinished : ring.finished with
    | true =>
      rw [circulate_of_finished hfinished] at h
      cases h
    | false =>
      cases hround : round fuel signal ring with
      | error error next =>
        rw [circulate, if_neg (by simp [hfinished])] at h
        simp only [hround, EStateM.Result.error.injEq] at h
        obtain ⟨rfl, -⟩ := h
        -- A round on its own never stalls; only the run that repeats it does.
        exact absurd hround (round_ne_stalled _ _ _)
      | ok given next =>
        cases hprogress : given.progressed with
        | true =>
          rw [circulate_of_progress hfinished hround hprogress] at h
          exact ih (.next hbegun hfinished hround hprogress) h
        | false =>
          rw [circulate_of_stall hfinished hround hprogress] at h
          cases h
          exact ⟨soFar, signal, ring, given, hbegun, hfinished, hround, hprogress⟩

theorem circulate_of_underway {seed : Int} {start ring : Ring} {soFar : Feedback}
    (h : Underway seed start soFar signal ring) :
    ∃ enough, ∀ fuel, enough ≤ fuel → ∀ left,
      circulate fuel (left + soFar.rounds) ⟨none, 0⟩ (some seed) start =
        circulate fuel left soFar signal ring := by
  induction h with
  | start => exact ⟨0, fun _ _ _ => rfl⟩
  | @next soFar signal ring next fuel given _ hunfinished hround hprogress ih =>
    obtain ⟨enough, hreach⟩ := ih
    refine ⟨max enough fuel, ?_⟩
    intro n hn left
    have hround' := round_fuel_mono (Nat.le_trans (Nat.le_max_right ..) hn) hround
    rw [← circulate_of_progress hunfinished hround' hprogress]
    rw [← hreach n (Nat.le_trans (Nat.le_max_left ..) hn) (left + 1)]
    congr 1
    exact (Nat.add_right_comm left 1 soFar.rounds).symm

end Ring

end TapeMachine
