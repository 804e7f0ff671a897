import TapeMachine.Proofs.Machine.Replay
import TapeMachine.Proofs.Machine.Session
import TapeMachine.Proofs.Ring.Round

/-!
What the machines of a ring emit in a feedback run, turn by turn. If no turn emits more than one
value then nothing that is emitted gets lost on the way: every machine has been fed its phase and
what the machine before it emitted, unless it had terminated (`Chained`), and the result of the run
is the last value that the last machine emitted.
-/

namespace TapeMachine

variable {fuel : Nat} {signal : Option Int}

namespace Machine

def turnOutputs (fuel : Nat) (signal : Option Int) (machine : Machine) : List Int :=
  if machine.status = .terminated then []
  else (remaining (run (.fuel fuel) (machine.feed? signal))).outputs.toList

theorem toList_getLast? {values : List Int} (h : values.length ≤ 1) :
    values.getLast?.toList = values := by
  match values, h with
  | [], _ => rfl
  | [_], _ => rfl

/-- A machine between its turns. It started with the program, was offered the values of `source` and
has emitted those of `emitted`; only a terminated machine may have refused an offer. -/
structure Heeds (program source emitted : List Int) (machine : Machine) : Prop where
  outputs : machine.outputs = .empty
  replays : ∃ fed, machine.Replays program fed emitted ∧ fed <+: source ∧
    (machine.status ≠ .terminated → fed = source)

theorem heeds_turn {program source emitted : List Int} {machine next : Machine} {given : Handover}
    (h : machine.Heeds program source emitted)
    (hturn : turn fuel signal machine = .ok given next)
    (hsingle : (turnOutputs fuel signal machine).length ≤ 1) :
    next.Heeds program (source ++ signal.toList)
        (emitted ++ turnOutputs fuel signal machine) ∧
      given.signal.toList = turnOutputs fuel signal machine := by
  obtain ⟨houtputs, fed, hreplays, hfed, hlive⟩ := h
  by_cases hterminated : machine.status = .terminated
  · rw [turn_of_terminated hterminated] at hturn
    cases hturn
    rw [turnOutputs, if_pos hterminated, List.append_nil]
    refine ⟨⟨houtputs, fed, hreplays, ?_, ?_⟩, rfl⟩
    · exact hfed.trans (List.prefix_append _ _)
    · exact absurd hterminated
  · obtain ⟨rested, hrun, rfl, rfl⟩ := (turn_eq_ok hterminated).1 hturn
    have hgiven : turnOutputs fuel signal machine = rested.outputs.toList := by
      rw [turnOutputs, if_neg hterminated, hrun]
      rfl
    rw [hgiven] at hsingle ⊢
    -- A machine that is still on has been fed all that it was offered.
    obtain rfl := hlive hterminated
    have hoffered := hreplays.feedAll signal.toList
    rw [← feed?_eq] at hoffered
    obtain ⟨new, hnew, hrested⟩ := hoffered.advance (run_eq_ok.1 hrun).1
    rw [outputs_feed?, houtputs, Queue.toList_empty, List.nil_append] at hnew
    rw [hnew] at hsingle ⊢
    refine ⟨⟨rfl, _, hrested.takeOutputs, List.prefix_refl _, fun _ => rfl⟩, ?_⟩
    rw [handover, hnew, toList_getLast? hsingle]

end Machine

namespace Ring

def passOutputs (fuel : Nat) (signal : Option Int) : List Machine → List (List Int)
  | [] => []
  | machine :: machines =>
    machine.turnOutputs fuel signal ::
      match machine.turn fuel signal with
      | .ok handover _ => passOutputs fuel handover.signal machines
      | .error _ _ => []

def circulateOutputs (fuel : Nat) : (left : Nat) → (signal : Option Int) → Ring →
    List (List (List Int))
  | left, signal, ring =>
    if ring.finished then []
    else
      match left with
      | 0 => []
      | left + 1 =>
        passOutputs fuel signal ring.machines ::
          match round fuel signal ring with
          | .ok handover ring =>
            if handover.progressed then circulateOutputs fuel left handover.signal ring else []
          | .error _ _ => []

def feedbackOutputs (fuel : Nat) (seed : Int) (ring : Ring) : List (List (List Int)) :=
  circulateOutputs fuel fuel (some seed) ring

def lastOutputs (fuel : Nat) (seed : Int) (ring : Ring) : List Int :=
  (feedbackOutputs fuel seed ring).flatMap fun turns => turns.getLastD []

/-- A row of machines, of which the first one has been offered its phase and the values of `source`
and every other one its phase and what the one before it has emitted. -/
inductive Chained (program : List Int) :
    (source phases : List Int) → List Machine → (emitted : List (List Int)) → Prop
  | nil {source : List Int} : Chained program source [] [] []
  | cons {source phases emitted : List Int} {phase : Int} {machine : Machine}
      {machines : List Machine} {rest : List (List Int)} :
      machine.Heeds program (phase :: source) emitted →
      Chained program emitted phases machines rest →
      Chained program source (phase :: phases) (machine :: machines) (emitted :: rest)

variable {program source phases : List Int} {machines left : List Machine}
  {emitted : List (List Int)} {given : Handover}

theorem chained_pass (h : Chained program source phases machines emitted)
    (hpass : pass fuel signal machines = .ok given left)
    (hsingle : ∀ values ∈ passOutputs fuel signal machines, values.length ≤ 1) :
    Chained program (source ++ signal.toList) phases left
        (List.zipWith (· ++ ·) emitted (passOutputs fuel signal machines)) ∧
      given.signal.toList = (passOutputs fuel signal machines).getLastD signal.toList := by
  induction h generalizing signal given left with
  | nil =>
    cases hpass
    exact ⟨.nil, rfl⟩
  | cons hmachine _ ih =>
    obtain ⟨first, next, last, rest, hturn, hrest, rfl, rfl⟩ := pass_cons_eq_ok.1 hpass
    simp only [passOutputs, hturn, List.forall_mem_cons] at hsingle ⊢
    obtain ⟨hnext, hfirst⟩ := Machine.heeds_turn hmachine hturn hsingle.1
    obtain ⟨hchained, hlast⟩ := ih hrest hsingle.2
    rw [hfirst] at hchained hlast
    exact ⟨.cons hnext hchained, by rw [List.getLastD_cons, hlast]⟩

theorem length_passOutputs (hpass : pass fuel signal machines = .ok given left) :
    (passOutputs fuel signal machines).length = machines.length := by
  induction machines generalizing signal given left with
  | nil => rfl
  | cons machine machines ih =>
    obtain ⟨first, next, last, rest, hturn, hrest, -, -⟩ := pass_cons_eq_ok.1 hpass
    simp only [passOutputs, hturn, List.length_cons, ih hrest]

theorem Chained.length_eq (h : Chained program source phases machines emitted) :
    machines.length = phases.length ∧ emitted.length = phases.length := by
  induction h with
  | nil => exact ⟨rfl, rfl⟩
  | cons _ _ ih => exact ⟨congrArg (· + 1) ih.1, congrArg (· + 1) ih.2⟩

theorem getLastD_zipWith_append {xss yss : List (List Int)} (h : xss.length = yss.length)
    (xs ys : List Int) :
    (List.zipWith (· ++ ·) xss yss).getLastD (xs ++ ys) = xss.getLastD xs ++ yss.getLastD ys := by
  induction xss generalizing yss xs ys with
  | nil =>
    obtain rfl := List.eq_nil_of_length_eq_zero h.symm
    rfl
  | cons xs' xss ih =>
    obtain ⟨ys', yss, rfl⟩ := List.exists_cons_of_length_eq_add_one h.symm
    simp only [List.zipWith_cons_cons, List.getLastD_cons]
    exact ih (Nat.succ.inj h) xs' ys'

/-- A feedback run between two rounds: the signals sent so far are the seed and what the last
machine has emitted, but for the signal to be sent. -/
structure Circulated (program : List Int) (seed : Int) (phases : List Int) (soFar : Feedback)
    (signal : Option Int) (ring : Ring) (sent : List Int) (emitted : List (List Int)) : Prop where
  chained : Chained program sent phases ring.machines emitted
  sent : sent ++ signal.toList = seed :: emitted.getLastD []
  result : soFar.signal = (emitted.getLastD []).getLast?

section

variable {seed : Int} {soFar : Feedback} {ring next : Ring} {sent : List Int}

theorem circulated_round (hne : phases ≠ [])
    (h : Circulated program seed phases soFar signal ring sent emitted)
    (hround : round fuel signal ring = .ok given next)
    (hsingle : ∀ values ∈ passOutputs fuel signal ring.machines, values.length ≤ 1) :
    Circulated program seed phases (soFar.next given) given.signal next (sent ++ signal.toList)
        (List.zipWith (· ++ ·) emitted (passOutputs fuel signal ring.machines)) ∧
      (List.zipWith (· ++ ·) emitted (passOutputs fuel signal ring.machines)).getLastD [] =
        emitted.getLastD [] ++ (passOutputs fuel signal ring.machines).getLastD [] := by
  have hpass := round_eq_ok.1 hround
  obtain ⟨hchained, hgiven⟩ := chained_pass h.chained hpass hsingle
  obtain ⟨hmachines, hemitted⟩ := h.chained.length_eq
  have hlength : (passOutputs fuel signal ring.machines).length = phases.length :=
    (length_passOutputs hpass).trans hmachines
  have hlast : (List.zipWith (· ++ ·) emitted (passOutputs fuel signal ring.machines)).getLastD [] =
      emitted.getLastD [] ++ (passOutputs fuel signal ring.machines).getLastD [] :=
    getLastD_zipWith_append (hemitted.trans hlength.symm) [] []
  have hsignal : given.signal.toList = (passOutputs fuel signal ring.machines).getLastD [] := by
    rw [hgiven]
    cases hturns : passOutputs fuel signal ring.machines with
    | nil =>
      rw [hturns] at hlength
      exact absurd (List.eq_nil_of_length_eq_zero hlength.symm) hne
    | cons values rest => rw [List.getLastD_cons, List.getLastD_cons]
  refine ⟨⟨hchained, ?_, ?_⟩, hlast⟩
  · rw [h.sent, hsignal, hlast, List.cons_append]
  · rw [hlast, ← hsignal, Feedback.next, h.result]
    cases given.signal <;> simp

theorem circulateOutputs_of_finished (h : ring.finished = true) (left : Nat) :
    circulateOutputs fuel left signal ring = [] := by
  cases left with
  | zero => rw [circulateOutputs, if_pos h]
  | succ left => rw [circulateOutputs, if_pos h]

theorem circulateOutputs_of_progress (h : ring.finished = false)
    (hround : round fuel signal ring = .ok given next) (hprogress : given.progressed = true)
    (left : Nat) :
    circulateOutputs fuel (left + 1) signal ring =
      passOutputs fuel signal ring.machines :: circulateOutputs fuel left given.signal next := by
  rw [circulateOutputs, if_neg (by simp [h])]
  simp only [hround, hprogress, if_true]

theorem circulated_circulate (hne : phases ≠ []) {left : Nat} {result : Feedback} {final : Ring}
    (h : Circulated program seed phases soFar signal ring sent emitted)
    (hreturns : circulate fuel left soFar signal ring = .ok result final)
    (hsingle : ∀ turns ∈ circulateOutputs fuel left signal ring,
      ∀ values ∈ turns, values.length ≤ 1) :
    ∃ signal' sent' emitted',
      Circulated program seed phases result signal' final sent' emitted' ∧
      emitted'.getLastD [] = emitted.getLastD [] ++
        (circulateOutputs fuel left signal ring).flatMap fun turns => turns.getLastD [] := by
  induction hreturns using circulate_induction generalizing sent emitted with
  | finished left signal _ hfinished =>
    refine ⟨signal, sent, emitted, h, ?_⟩
    rw [circulateOutputs_of_finished hfinished, List.flatMap_nil, List.append_nil]
  | progress left soFar signal ring _ given next _ hgoes hround hprogress ih =>
    rw [circulateOutputs_of_progress hgoes hround hprogress] at hsingle ⊢
    obtain ⟨hturns, hrest⟩ := List.forall_mem_cons.1 hsingle
    obtain ⟨hnext, hlast⟩ := circulated_round hne h hround hturns
    obtain ⟨signal', sent', emitted', hfinal, hemitted⟩ := ih hnext hrest
    refine ⟨signal', sent', emitted', hfinal, ?_⟩
    rw [List.flatMap_cons, hemitted, hlast, List.append_assoc]

theorem heeds_phased (program : List Int) (phase : Int) :
    (phased program phase).Heeds program [phase] [] where
  outputs := rfl
  replays := ⟨[phase], .load program [phase], List.prefix_refl _, fun _ => rfl⟩

theorem chained_start (program phases : List Int) :
    Chained program [] phases (phases.map (phased program)) (phases.map fun _ => []) := by
  induction phases with
  | nil => exact .nil
  | cons phase phases ih => exact .cons (heeds_phased program phase) ih

theorem getLastD_map_nil (phases : List Int) :
    (phases.map fun _ => ([] : List Int)).getLastD [] = [] := by
  induction phases with
  | nil => rfl
  | cons phase phases ih => rw [List.map_cons, List.getLastD_cons, ih]

theorem circulated_feedback {start final : Ring} {result : Feedback}
    (hstart : ofPhases program phases = .ok start)
    (hreturns : feedback fuel seed start = .ok result final)
    (hsingle : ∀ turns ∈ feedbackOutputs fuel seed start, ∀ values ∈ turns, values.length ≤ 1) :
    ∃ sent emitted, Chained program sent phases final.machines emitted ∧
      sent <+: seed :: emitted.getLastD [] ∧ emitted.getLastD [] = lastOutputs fuel seed start ∧
      result.signal = (lastOutputs fuel seed start).getLast? := by
  obtain ⟨hne, rfl⟩ : phases ≠ [] ∧ start = ⟨phases.map (phased program)⟩ := by
    cases phases with
    | nil => cases hstart
    | cons phase phases =>
      cases hstart
      exact ⟨List.cons_ne_nil _ _, rfl⟩
  have hsilent := getLastD_map_nil phases
  have hbegin : Circulated program seed phases ⟨none, 0⟩ (some seed)
      ⟨phases.map (phased program)⟩ [] (phases.map fun _ => []) :=
    ⟨chained_start program phases, by rw [hsilent]; rfl, by rw [hsilent]; rfl⟩
  obtain ⟨signal, sent, emitted, hfinal, hemitted⟩ :=
    circulated_circulate hne hbegin hreturns hsingle
  rw [hsilent, List.nil_append] at hemitted
  refine ⟨sent, emitted, hfinal.chained, ?_, hemitted, ?_⟩
  · rw [← hfinal.sent]
    exact List.prefix_append _ _
  · rw [hfinal.result, hemitted]
    rfl

end

end Ring

end TapeMachine
