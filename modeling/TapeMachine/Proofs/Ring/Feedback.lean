import TapeMachine.Proofs.Ring.Routing

namespace TapeMachine

variable {fuel : Nat} {signal : Option Int}

namespace Ring

def lastEmitted (fuel : Nat) (signal : Option Int) (ring : Ring) : List Int :=
  match pass fuel signal ring.machines.dropLast, ring.machines.getLast? with
  | .ok given _, some machine => machine.turnEmitted fuel given.signal
  | _, _ => []

theorem signal_of_round {ring next : Ring} {given : Handover} (hdriven : Driven ring)
    (hround : round fuel signal ring = .ok given next) :
    given.signal = (ring.lastEmitted fuel signal).getLast? := by
  have hlast := List.dropLast_concat_getLast hdriven.ne_nil
  have hpass := round_eq_ok.1 hround
  rw [← hlast] at hpass
  obtain ⟨first, _, _, _, hfront, hback, rfl, -⟩ := pass_append_eq_ok.1 hpass
  obtain ⟨own, machine, _, _, hturn, ⟨⟩, rfl, -⟩ := pass_cons_eq_ok.1 hback
  have hempty := (hdriven.ready _ (List.getLast_mem hdriven.ne_nil)).outputs
  have hsignal := Machine.signal_of_turn hempty hturn
  rw [lastEmitted, hfront, List.getLast?_eq_some_getLast hdriven.ne_nil]
  exact hsignal

def visited (fuel : Nat) : (left : Nat) → (signal : Option Int) → Ring →
    List (Option Int × Ring)
  | left, signal, ring =>
    if ring.finished then []
    else
      match left with
      | 0 => []
      | left + 1 =>
        (signal, ring) ::
          match round fuel signal ring with
          | .ok handover next =>
            if handover.progressed then visited fuel left handover.signal next else []
          | .error _ _ => []

def emitted (fuel left : Nat) (signal : Option Int) (ring : Ring) : List Int :=
  (visited fuel left signal ring).flatMap fun (signal, ring) => ring.lastEmitted fuel signal

section

variable {left : Nat} {soFar result : Feedback} {ring next final : Ring} {given : Handover}

theorem emitted_of_finished (h : ring.finished = true) (left : Nat) :
    emitted fuel left signal ring = [] := by
  cases left with
  | zero => rw [emitted, visited, if_pos h, List.flatMap_nil]
  | succ left => rw [emitted, visited, if_pos h, List.flatMap_nil]

theorem emitted_of_progress (h : ring.finished = false)
    (hround : round fuel signal ring = .ok given next) (hprogress : given.progressed = true)
    (left : Nat) :
    emitted fuel (left + 1) signal ring =
      ring.lastEmitted fuel signal ++ emitted fuel left given.signal next := by
  rw [emitted, visited, if_neg (by simp [h])]
  simp only [hround, hprogress, if_true, List.flatMap_cons]
  rfl

theorem Feedback.signal_next (soFar : Feedback) (given : Handover) :
    (soFar.next given).signal = given.signal.or soFar.signal := by
  rw [next]
  cases given.signal <;> rfl

theorem driven_of_circulate (h : circulate fuel left soFar signal ring = .ok result final)
    (hdriven : Driven ring) : Driven final := by
  induction h using circulate_induction with
  | finished left signal _ _ => exact hdriven
  | progress left soFar signal ring _ given next _ _ hround _ ih => exact ih (hdriven.round hround)

theorem signal_of_circulate (h : circulate fuel left soFar signal ring = .ok result final)
    (hdriven : Driven ring) :
    result.signal = (emitted fuel left signal ring).getLast?.or soFar.signal := by
  induction h using circulate_induction with
  | finished left signal _ hfinished =>
    rw [emitted_of_finished hfinished, List.getLast?_nil, Option.none_or]
  | progress left soFar signal ring _ given next _ hgoes hround hprogress ih =>
    rw [ih (hdriven.round hround), emitted_of_progress hgoes hround hprogress,
      List.getLast?_append, Option.or_assoc, ← signal_of_round hdriven hround,
      Feedback.signal_next]

end

/-- A feedback run that returns has terminated the last machine, and its result is the last value
that an output instruction of this machine emitted in any of the rounds. There is none exactly if
the machine never emitted one. -/
theorem feedback_result {program phases : List Int} {seed : Int} {start final : Ring}
    {result : Feedback} (hstart : ofPhases program phases = .ok start)
    (hreturns : feedback fuel seed start = .ok result final) :
    (∃ last, final.machines.getLast? = some last ∧ last.status = .terminated) ∧
    result.signal = (start.emitted fuel fuel (some seed)).getLast? ∧
    (result.signal = none ↔ start.emitted fuel fuel (some seed) = []) := by
  have hdriven := Driven.start hstart
  have hsignal : result.signal = (emitted fuel fuel (some seed) start).getLast? := by
    rw [signal_of_circulate hreturns hdriven, Option.or_none]
  refine ⟨?_, hsignal, ?_⟩
  · have hne := (driven_of_circulate hreturns hdriven).ne_nil
    have hfinished := finished_of_circulate hreturns
    have hlast := List.getLast?_eq_some_getLast hne
    rw [finished, hlast] at hfinished
    exact ⟨_, hlast, of_decide_eq_true hfinished⟩
  · rw [hsignal, List.getLast?_eq_none_iff]

-- Takes its phase, emits the signal and 7, and halts at the next signal.
def takingTwo : List Int := [3, 0, 3, 0, 4, 0, 104, 7, 3, 0, 99]

theorem feedback_result_silent :
    ofPhases takingTwo [5] = .ok ⟨[phased takingTwo 5]⟩ ∧
    feedback 5 4 ⟨[phased takingTwo 5]⟩ =
      .ok ⟨some 7, 2⟩ ⟨[⟨.ofList [7, 0, 3, 0, 4, 0, 104, 7, 3, 0, 99], 10, 0, .terminated, 6,
        .empty, .empty⟩]⟩ ∧
    visited 5 5 (some 4) ⟨[phased takingTwo 5]⟩ =
      [(some 4, ⟨[phased takingTwo 5]⟩),
        (some 7, ⟨[⟨.ofList [4, 0, 3, 0, 4, 0, 104, 7, 3, 0, 99], 8, 0, .awaitingInput, 4,
          .empty, .empty⟩]⟩)] ∧
    emitted 5 5 (some 4) ⟨[phased takingTwo 5]⟩ = [4, 7] ∧
    some 7 = (emitted 5 5 (some 4) ⟨[phased takingTwo 5]⟩).getLast? := by
  have hstart : ofPhases takingTwo [5] = .ok ⟨[phased takingTwo 5]⟩ := rfl
  have hreturns : feedback 5 4 ⟨[phased takingTwo 5]⟩ =
      .ok ⟨some 7, 2⟩ ⟨[⟨.ofList [7, 0, 3, 0, 4, 0, 104, 7, 3, 0, 99], 10, 0, .terminated, 6,
        .empty, .empty⟩]⟩ := by
    decide +kernel
  exact ⟨hstart, hreturns, by decide +kernel, by decide +kernel,
    (feedback_result hstart hreturns).2.1⟩

end Ring

end TapeMachine
