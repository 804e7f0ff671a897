import TapeMachine.Proofs.Machine.Replay

/-!
The network: the machines of a ring without their turns. Each one has a queue of its own, which
takes in all that the machine before it emits, and a schedule lets them step in any order. Whatever
the schedule, every node has been fed its opening and what the one before it has emitted (`Sound`).
-/

namespace TapeMachine

structure Node : Type where
  machine : Machine
  emitted : List Int
  faulted : Bool

namespace Node

def Blocked (node : Node) : Prop :=
  node.faulted = true ∨ node.machine.status = .terminated ∨
    node.machine.status = .awaitingInput ∧ node.machine.inputs = .empty

instance : DecidablePred Blocked := fun _ => inferInstanceAs (Decidable (_ ∨ _ ∨ _ ∧ _))

def step (node : Node) : List Int × Node :=
  if node.Blocked then ([], node)
  else
    match node.machine.step with
    | .error _ machine => ([], ⟨machine, node.emitted, true⟩)
    | .ok () machine =>
      match machine.takeOutputs with
      | (values, machine) => (values, ⟨machine, node.emitted ++ values, false⟩)

def hear (node : Node) (values : List Int) : Node :=
  { node with machine := node.machine.feedAll values }

end Node

/-- Nodes in a circle: each one hears the one before it. -/
structure Network : Type where
  nodes : List Node

namespace Network

def opening (seed : Int) : (index : Nat) → (phase : Int) → List Int
  | 0, phase => [phase, seed]
  | _ + 1, phase => [phase]

def ofPhases (program phases : List Int) (seed : Int) : Network where
  nodes := phases.mapIdx fun index phase =>
    ⟨Machine.load program (opening seed index phase), [], false⟩

def step (network : Network) (index : Nat) : Network :=
  match network.nodes[index]? with
  | none => network
  | some node =>
    ⟨(network.nodes.set index node.step.2).modify ((index + 1) % network.nodes.length)
      (·.hear node.step.1)⟩

def follow (schedule : List Nat) (network : Network) : Network :=
  schedule.foldl step network

end Network

namespace Node

variable {program source : List Int} {node : Node}

inductive Heeds (program source : List Int) : Node → Prop
  | live {machine : Machine} {emitted : List Int} :
      machine.outputs = .empty → machine.Prompt → machine.Replays program source emitted →
      Heeds program source ⟨machine, emitted, false⟩
  | faulted {machine past : Machine} {fed emitted : List Int} :
      machine.status ≠ .terminated → past.Replays program fed emitted → fed <+: source →
      Heeds program source ⟨machine, emitted, true⟩

theorem Heeds.hear (h : node.Heeds program source) (values : List Int) :
    (node.hear values).Heeds program (source ++ values) := by
  cases h with
  | live houtputs hprompt hreplays =>
    refine .live ?_ (hprompt.feedAll values) (hreplays.feedAll values)
    rw [Machine.outputs_feedAll, houtputs]
  | faulted hlive hreplays hfed =>
    refine .faulted ?_ hreplays (hfed.trans (List.prefix_append _ _))
    rwa [Ne, Machine.feedAll_terminated]

theorem running_of_not_blocked {machine : Machine} {emitted : List Int} {faulted : Bool}
    (hprompt : machine.Prompt) (h : ¬ Blocked ⟨machine, emitted, faulted⟩) :
    machine.status = .running := by
  cases hstatus : machine.status with
  | running => rfl
  | awaitingInput => exact absurd (.inr (.inr ⟨hstatus, hprompt hstatus⟩)) h
  | terminated => exact absurd (.inr (.inl hstatus)) h

theorem Heeds.step (h : node.Heeds program source) : node.step.2.Heeds program source := by
  by_cases hblocked : node.Blocked
  · rwa [Node.step, if_pos hblocked]
  · rw [Node.step, if_neg hblocked]
    cases h with
    | faulted => exact absurd (.inl rfl) hblocked
    | @live machine emitted houtputs hprompt hreplays =>
      have hrunning := running_of_not_blocked hprompt hblocked
      cases hstep : machine.step with
      | error fault next =>
        refine .faulted ?_ hreplays (List.prefix_refl _)
        rw [Machine.status_of_step_error hstep, hrunning]
        rintro ⟨⟩
      | ok _ next =>
        obtain ⟨new, hnew, hnext⟩ := hreplays.step hrunning hstep
        rw [houtputs, Queue.toList_empty, List.nil_append] at hnew
        rw [← hnew] at hnext
        have hprompt' : next.Prompt := .step hrunning hstep
        exact .live rfl hprompt' hnext.takeOutputs

theorem Heeds.replays (h : node.Heeds program source) :
    ∃ (past : Machine) (fed : List Int), past.Replays program fed node.emitted ∧ fed <+: source ∧
      (node.machine.status = .terminated → past.status = .terminated) := by
  cases h with
  | live _ _ hreplays => exact ⟨_, source, hreplays, List.prefix_refl _, id⟩
  | faulted hlive hreplays hfed => exact ⟨_, _, hreplays, hfed, fun h => absurd h hlive⟩

theorem emitted_step (node : Node) : node.step.2.emitted = node.emitted ++ node.step.1 := by
  rw [step]
  split
  · exact (List.append_nil _).symm
  · cases node.machine.step with
    | error fault machine => exact (List.append_nil _).symm
    | ok _ machine => rfl

@[simp] theorem emitted_hear (node : Node) (values : List Int) :
    (node.hear values).emitted = node.emitted :=
  rfl

@[simp] theorem hear_nil (node : Node) : node.hear [] = node :=
  rfl

end Node

namespace Network

variable {program phases : List Int} {seed : Int} {network : Network}

def previous (n : Nat) : Nat → Nat
  | 0 => n - 1
  | index + 1 => index

theorem next_eq_iff {n i j : Nat} (hi : i < n) (hj : j < n) :
    (i + 1) % n = j ↔ i = previous n j := by
  have hnext : (i + 1) % n = if i + 1 = n then 0 else i + 1 := by
    split
    · next hlast => rw [hlast, Nat.mod_self]
    · exact Nat.mod_eq_of_lt (by omega)
  rw [hnext]
  cases j with
  | zero => simp only [previous]; split <;> omega
  | succ j => simp only [previous]; split <;> omega

def emitted (network : Network) (index : Nat) : List Int :=
  network.nodes[index]?.elim [] Node.emitted

theorem getElem?_step {i : Nat} {node : Node} (h : network.nodes[i]? = some node) (j : Nat) :
    (network.step i).nodes[j]? = network.nodes[j]?.map fun other =>
      (if j = i then node.step.2 else other).hear
        (if (i + 1) % network.nodes.length = j then node.step.1 else []) := by
  have hset : (network.nodes.set i node.step.2)[j]? =
      network.nodes[j]?.map fun other => if j = i then node.step.2 else other := by
    rw [List.getElem?_set]
    by_cases hself : i = j
    · subst hself
      obtain ⟨hi, -⟩ := List.getElem?_eq_some_iff.1 h
      rw [if_pos rfl, if_pos hi, h]
      simp
    · rw [if_neg hself]
      simp [Ne.symm hself]
  simp only [step, h, List.getElem?_modify, hset]
  cases network.nodes[j]? with
  | none => rfl
  | some other => by_cases hnext : (i + 1) % network.nodes.length = j <;> simp [hnext]

theorem length_step (network : Network) (i : Nat) :
    (network.step i).nodes.length = network.nodes.length := by
  rw [step]
  split
  · rfl
  · rw [List.length_modify, List.length_set]

theorem emitted_step {i : Nat} {node : Node} (h : network.nodes[i]? = some node) (j : Nat) :
    (network.step i).emitted j = network.emitted j ++ if j = i then node.step.1 else [] := by
  rw [emitted, getElem?_step h, emitted]
  by_cases hself : j = i
  · subst hself
    simp [h, Node.emitted_step]
  · cases network.nodes[j]? <;> simp [hself]

/-- Every node has been fed its opening and what the node before it has emitted. -/
structure Sound (program phases : List Int) (seed : Int) (network : Network) : Prop where
  length : network.nodes.length = phases.length
  heeds : ∀ (j : Nat) (node : Node) (phase : Int), network.nodes[j]? = some node →
    phases[j]? = some phase →
    node.Heeds program (opening seed j phase ++ network.emitted (previous phases.length j))

theorem emitted_ofPhases (program phases : List Int) (seed : Int) (j : Nat) :
    (ofPhases program phases seed).emitted j = [] := by
  simp only [emitted, ofPhases, List.getElem?_mapIdx]
  cases phases[j]? <;> rfl

theorem sound_ofPhases (program phases : List Int) (seed : Int) :
    (ofPhases program phases seed).Sound program phases seed := by
  refine ⟨List.length_mapIdx, ?_⟩
  intro j node phase hnode hphase
  simp only [ofPhases, List.getElem?_mapIdx, hphase, Option.map_some, Option.some.injEq] at hnode
  rw [emitted_ofPhases, List.append_nil, ← hnode]
  exact .live rfl (by rintro ⟨⟩) (.load program _)

theorem sound_step (h : network.Sound program phases seed) (i : Nat) :
    (network.step i).Sound program phases seed := by
  obtain ⟨hlength, hheeds⟩ := h
  refine ⟨(length_step network i).trans hlength, ?_⟩
  intro j node phase hnode hphase
  cases hstep : network.nodes[i]? with
  | none =>
    simp only [step, emitted, hstep] at hnode ⊢
    exact hheeds j node phase hnode hphase
  | some stepping =>
    rw [getElem?_step hstep, Option.map_eq_some_iff] at hnode
    obtain ⟨other, hother, rfl⟩ := hnode
    have hi := (List.getElem?_eq_some_iff.1 hstep).1
    have hj := (List.getElem?_eq_some_iff.1 hother).1
    have hold := hheeds j other phase hother hphase
    -- The node that steps has heard nothing new; then the one behind it hears what it emits.
    have hnew : (if j = i then stepping.step.2 else other).Heeds program
        (opening seed j phase ++ network.emitted (previous phases.length j)) := by
      by_cases hself : j = i
      · subst hself
        rw [hstep] at hother
        cases hother
        rw [if_pos rfl]
        exact hold.step
      · rwa [if_neg hself]
    have hheard := hnew.hear (if (i + 1) % network.nodes.length = j then stepping.step.1 else [])
    rw [hlength] at hi hj hheard ⊢
    rw [emitted_step hstep, ← List.append_assoc]
    simp only [next_eq_iff hi hj, eq_comm (a := i)] at hheard ⊢
    exact hheard

theorem sound_follow (h : network.Sound program phases seed) (schedule : List Nat) :
    (network.follow schedule).Sound program phases seed := by
  induction schedule generalizing network with
  | nil => exact h
  | cons i schedule ih => exact ih (sound_step h i)

end Network

end TapeMachine
