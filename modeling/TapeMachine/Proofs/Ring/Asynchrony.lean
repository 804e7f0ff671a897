import TapeMachine.Proofs.Ring.Emission
import TapeMachine.Proofs.Ring.Network

namespace TapeMachine.Network

variable {program phases : List Int} {seed : Int} {network : Network}

theorem comparable_of_parts {xs ys us vs : List Int} (hxs : xs <+: us) (hys : ys <+: vs)
    (h : us <+: vs ∨ vs <+: us) : xs <+: ys ∨ ys <+: xs := by
  obtain h | h := h
  · exact List.prefix_or_prefix_of_prefix (hxs.trans h) hys
  · exact List.prefix_or_prefix_of_prefix hxs (hys.trans h)

theorem getLastD_eq_getD {α : Type} (values : List α) (d : α) :
    values.getLastD d = values.getD (values.length - 1) d := by
  rw [List.getLastD_eq_getLast?, List.getLast?_eq_getElem?, List.getD_eq_getElem?_getD]

def offered (source : List Int) (emitted : List (List Int)) : (index : Nat) → List Int
  | 0 => source
  | index + 1 => emitted.getD index []

theorem heeds_of_chained {source : List Int} {machines : List Machine} {emitted : List (List Int)}
    (h : Ring.Chained program source phases machines emitted) {j : Nat} {machine : Machine}
    {phase : Int} (hmachine : machines[j]? = some machine) (hphase : phases[j]? = some phase) :
    machine.Heeds program (phase :: offered source emitted j) (emitted.getD j []) := by
  induction h generalizing j with
  | nil => cases hmachine
  | @cons source phases first _ _ machines rest hfirst _ ih =>
    cases j with
    | zero =>
      cases hmachine
      cases hphase
      exact hfirst
    | succ j =>
      have hsame : offered source (first :: rest) (j + 1) = offered first rest j := by
        cases j <;> rfl
      rw [hsame]
      exact ih hmachine hphase

/-- A row of machines in a circle. Each of them may have been fed a part of its opening and of what
the one before it emitted. -/
structure Replayed (program phases : List Int) (seed : Int) (machines : List Machine)
    (emitted : List (List Int)) : Prop where
  length : machines.length = phases.length
  replays : ∀ (j : Nat) (machine : Machine) (phase : Int), machines[j]? = some machine →
    phases[j]? = some phase → ∃ fed, machine.Replays program fed (emitted.getD j []) ∧
      fed <+: opening seed j phase ++ emitted.getD (previous phases.length j) []

theorem replayed_of_chained {sent : List Int} {machines : List Machine}
    {emitted : List (List Int)} (h : Ring.Chained program sent phases machines emitted)
    (hsent : sent <+: seed :: emitted.getLastD []) :
    Replayed program phases seed machines emitted := by
  obtain ⟨hmachines, hemitted⟩ := h.length_eq
  refine ⟨hmachines, ?_⟩
  intro j machine phase hmachine hphase
  obtain ⟨-, fed, hreplays, hfed, -⟩ := heeds_of_chained h hmachine hphase
  refine ⟨fed, hreplays, hfed.trans ?_⟩
  cases j with
  | zero =>
    rw [previous, ← hemitted, ← getLastD_eq_getD]
    exact List.cons_prefix_cons.2 ⟨rfl, hsent⟩
  | succ j => exact List.prefix_refl _

section

variable {machines : List Machine} {emitted' : List (List Int)}

theorem compare_node (h : Replayed program phases seed machines emitted') {j : Nat}
    {phase : Int} {machine : Machine} {node : Node} {heard : List Int}
    (hmachine : machines[j]? = some machine) (hphase : phases[j]? = some phase)
    (hnode : node.Heeds program (opening seed j phase ++ heard))
    (hheard : heard <+: emitted'.getD (previous phases.length j) [] ∨
      emitted'.getD (previous phases.length j) [] <+: heard) :
    (node.emitted <+: emitted'.getD j [] ∨ emitted'.getD j [] <+: node.emitted) ∧
      (machine.status = .terminated → node.emitted <+: emitted'.getD j []) ∧
      (node.machine.status = .terminated → emitted'.getD j [] <+: node.emitted) := by
  obtain ⟨fed, hreplays, hfed⟩ := h.replays j machine phase hmachine hphase
  obtain ⟨past, fed', hpast, hfed', hend⟩ := hnode.replays
  have hsource : opening seed j phase ++ heard <+:
        opening seed j phase ++ emitted'.getD (previous phases.length j) [] ∨
      opening seed j phase ++ emitted'.getD (previous phases.length j) [] <+:
        opening seed j phase ++ heard := by
    rwa [List.prefix_append_right_inj, List.prefix_append_right_inj]
  have hparts := comparable_of_parts hfed' hfed hsource
  obtain ⟨hcompare, hmachineEnd⟩ := hpast.comparable hreplays hparts
  obtain ⟨-, hnodeEnd⟩ := hreplays.comparable hpast hparts.symm
  exact ⟨hcompare, hmachineEnd, fun hterminated => hnodeEnd (hend hterminated)⟩

/-- No node has emitted anything that the machine at its place in the row does not emit, unless that
machine has stopped short of it. -/
def Agrees (network : Network) (emitted' : List (List Int)) : Prop :=
  ∀ j, network.emitted j <+: emitted'.getD j [] ∨ emitted'.getD j [] <+: network.emitted j

theorem agrees_step (h : Replayed program phases seed machines emitted')
    (hsound : network.Sound program phases seed) (hagrees : network.Agrees emitted') (i : Nat) :
    (network.step i).Agrees emitted' := by
  intro j
  cases hnode : network.nodes[i]? with
  | none =>
    simp only [step, emitted, hnode]
    exact hagrees j
  | some node =>
    rw [emitted_step hnode]
    by_cases hself : j = i
    · subst hself
      obtain ⟨hj, -⟩ := List.getElem?_eq_some_iff.1 hnode
      rw [hsound.length] at hj
      have hphase := List.getElem?_eq_getElem hj
      have hmachine := List.getElem?_eq_getElem (l := machines) (i := j) (by rwa [h.length])
      have hstepped := (hsound.heeds j node _ hnode hphase).step
      -- What the node hears agrees with the row, and so does what it emits by another step.
      have hcompare := (compare_node h hmachine hphase hstepped (hagrees _)).1
      rw [Node.emitted_step] at hcompare
      rw [if_pos rfl, emitted, hnode]
      exact hcompare
    · rw [if_neg hself, List.append_nil]
      exact hagrees j

theorem agrees_follow (h : Replayed program phases seed machines emitted')
    (hsound : network.Sound program phases seed) (hagrees : network.Agrees emitted')
    (schedule : List Nat) : (network.follow schedule).Agrees emitted' := by
  induction schedule generalizing network with
  | nil => exact hagrees
  | cons i schedule ih => exact ih (sound_step hsound i) (agrees_step h hsound hagrees i)

end

/-- If a feedback run returns and no turn of it emits more than one value, then under every schedule
the last node has emitted a part of what the last machine emits in the feedback run, and all of it
once it has terminated, so its last value is the result. -/
theorem feedback_agrees {start final : Ring} {fuel : Nat} {result : Ring.Feedback}
    (hstart : Ring.ofPhases program phases = .ok start)
    (hreturns : Ring.feedback fuel seed start = .ok result final)
    (hsingle : ∀ turns ∈ Ring.feedbackOutputs fuel seed start, ∀ values ∈ turns,
      values.length ≤ 1) (schedule : List Nat) :
    ∃ last, ((ofPhases program phases seed).follow schedule).nodes.getLast? = some last ∧
      last.emitted <+: Ring.lastOutputs fuel seed start ∧
      (last.machine.status = .terminated →
        last.emitted = Ring.lastOutputs fuel seed start ∧
          last.emitted.getLast? = result.signal ∧
          (result.signal = none ↔ last.emitted = [])) := by
  obtain ⟨sent, emitted', hchained, hsent, hlast, hresult⟩ :=
    Ring.circulated_feedback hstart hreturns hsingle
  have hreplayed := replayed_of_chained hchained hsent
  have hbegin : (ofPhases program phases seed).Agrees emitted' := by
    intro j
    rw [emitted_ofPhases]
    exact .inl List.nil_prefix
  have hsound := sound_ofPhases program phases seed
  have hagrees := agrees_follow hreplayed hsound hbegin schedule
  obtain ⟨hlength, hheeds⟩ := sound_follow hsound schedule
  have hlast' : emitted'.getD (phases.length - 1) [] = Ring.lastOutputs fuel seed start := by
    rw [← hlast, getLastD_eq_getD, hchained.length_eq.2]
  have hindex : phases.length - 1 < phases.length := by
    cases phases with
    | nil => cases hstart
    | cons phase phases => exact Nat.sub_one_lt (Nat.succ_ne_zero _)
  have hphase := List.getElem?_eq_getElem hindex
  obtain ⟨machine, hmachine⟩ : ∃ machine, final.machines[phases.length - 1]? = some machine :=
    ⟨_, List.getElem?_eq_getElem (by rwa [hreplayed.length])⟩
  obtain ⟨node, hnode⟩ : ∃ node,
      ((ofPhases program phases seed).follow schedule).nodes[phases.length - 1]? = some node :=
    ⟨_, List.getElem?_eq_getElem (by rwa [hlength])⟩
  have hterminated : machine.status = .terminated :=
    Ring.terminated_of_finished (Ring.finished_of_circulate hreturns)
      (by rw [hreplayed.length, hmachine])
  -- The last machine of the row has terminated, so the last node cannot be ahead of it.
  obtain ⟨-, hpart, hend⟩ := compare_node hreplayed hmachine hphase
    (hheeds _ _ _ hnode hphase) (hagrees _)
  rw [hlast'] at hpart hend
  refine ⟨node, ?_, hpart hterminated, ?_⟩
  · rw [List.getLast?_eq_getElem?, hlength]
    exact hnode
  · intro hhalted
    have hsame := (hpart hterminated).eq_of_length_le (hend hhalted).length_le
    have hsignal : result.signal = node.emitted.getLast? := by rw [hsame, hresult]
    refine ⟨hsame, hsignal.symm, ?_⟩
    rw [hsignal]
    exact List.getLast?_eq_none_iff

theorem feedback_agrees_ahead :
    Ring.ofPhases [3, 6, 3, 8, 4, 8, 0, 8] [3, 99] =
      .ok ⟨[Ring.phased [3, 6, 3, 8, 4, 8, 0, 8] 3, Ring.phased [3, 6, 3, 8, 4, 8, 0, 8] 99]⟩ ∧
    ((ofPhases [3, 6, 3, 8, 4, 8, 0, 8] [3, 99] 4).follow [0, 0, 0, 1, 1, 1, 1, 0, 0, 0]).nodes.map
        (fun node => (node.emitted, node.machine.status, node.faulted)) =
      [([4, 3], .running, true), ([4], .terminated, false)] ∧
    ∃ last, ((ofPhases [3, 6, 3, 8, 4, 8, 0, 8] [3, 99] 4).follow
        [0, 0, 0, 1, 1, 1, 1, 0, 0, 0]).nodes.getLast? = some last ∧
      last.emitted <+: Ring.lastOutputs 5 4
        ⟨[Ring.phased [3, 6, 3, 8, 4, 8, 0, 8] 3, Ring.phased [3, 6, 3, 8, 4, 8, 0, 8] 99]⟩ ∧
      (last.machine.status = .terminated →
        last.emitted = Ring.lastOutputs 5 4
            ⟨[Ring.phased [3, 6, 3, 8, 4, 8, 0, 8] 3,
              Ring.phased [3, 6, 3, 8, 4, 8, 0, 8] 99]⟩ ∧
          last.emitted.getLast? = some 4 ∧ (some (4 : Int) = none ↔ last.emitted = [])) := by
  have hstart : Ring.ofPhases [3, 6, 3, 8, 4, 8, 0, 8] [3, 99] =
      .ok ⟨[Ring.phased [3, 6, 3, 8, 4, 8, 0, 8] 3,
        Ring.phased [3, 6, 3, 8, 4, 8, 0, 8] 99]⟩ :=
    rfl
  have hreturns : Ring.feedback 5 4
      ⟨[Ring.phased [3, 6, 3, 8, 4, 8, 0, 8] 3, Ring.phased [3, 6, 3, 8, 4, 8, 0, 8] 99]⟩ =
      .ok ⟨some 4, 1⟩
        ⟨[⟨.ofList [3, 6, 3, 8, 4, 8, 3, 8, 4], 6, 0, .awaitingInput, 3, .empty, .empty⟩,
          ⟨.ofList [3, 6, 3, 8, 4, 8, 99, 8, 4], 6, 0, .terminated, 4, .empty, .empty⟩]⟩ := by
    decide +kernel
  exact ⟨hstart, by decide +kernel, feedback_agrees hstart hreturns (by decide +kernel) _⟩

end TapeMachine.Network
