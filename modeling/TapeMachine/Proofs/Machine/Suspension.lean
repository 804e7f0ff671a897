import TapeMachine.Proofs.Machine.Settling
import TapeMachine.Proofs.Machine.Step

namespace TapeMachine.Machine

def stock (machine : Machine) (values : List Int) : Machine :=
  { machine with inputs := .ofList (machine.inputs.toList ++ values) }

@[simp] theorem stock_nil (machine : Machine) : machine.stock [] = machine := by
  simp [stock]

@[simp] theorem stock_stock (machine : Machine) (xs ys : List Int) :
    (machine.stock xs).stock ys = machine.stock (xs ++ ys) := by
  simp [stock]

@[simp] theorem status_stock (machine : Machine) (values : List Int) :
    (machine.stock values).status = machine.status :=
  rfl

theorem stock_singleton (machine : Machine) (value : Int) :
    machine.stock [value] = { machine with inputs := machine.inputs.push value } := by
  have h : Queue.ofList (machine.inputs.toList ++ [value]) = machine.inputs.push value :=
    Queue.toList_inj.1 (by simp)
  rw [stock, h]

theorem feedAll_append (machine : Machine) (xs ys : List Int) :
    machine.feedAll (xs ++ ys) = (machine.feedAll xs).feedAll ys :=
  List.foldl_append

theorem feedAll_of_awake {machine : Machine} (h : machine.status ≠ .awaitingInput)
    (values : List Int) : machine.feedAll values = machine.stock values := by
  induction values generalizing machine with
  | nil => exact (stock_nil machine).symm
  | cons value values ih =>
    have hfeed : machine.feed value = machine.stock [value] := by
      rw [feed, if_neg h, stock_singleton]
    have hawake : (machine.stock [value]).status ≠ .awaitingInput := h
    change (machine.feed value).feedAll values = _
    rw [hfeed, ih hawake, stock_stock]
    rfl

theorem feedAll_of_awaiting {machine : Machine} (h : machine.status = .awaitingInput)
    (value : Int) (values : List Int) :
    machine.feedAll (value :: values) =
      { machine.stock (value :: values) with status := .running } := by
  have hfeed : machine.feed value = { machine.stock [value] with status := .running } := by
    rw [feed, if_pos h, stock_singleton]
  change (machine.feed value).feedAll values = _
  rw [hfeed, feedAll_of_awake (by simp)]
  simp [stock]

theorem feedAll_eq (machine : Machine) (values : List Int) :
    ∃ status, machine.feedAll values = { machine.stock values with status := status } := by
  by_cases h : machine.status = .awaitingInput
  · cases values with
    | nil => exact ⟨machine.status, (stock_nil machine).symm⟩
    | cons value values => exact ⟨.running, feedAll_of_awaiting h value values⟩
  · exact ⟨machine.status, feedAll_of_awake h values⟩

theorem step_grow {machine : Machine} (h : machine.status ≠ .terminated) {size : Nat}
    (hsize : size ≤ Instruction.span machine.memory machine.pointer) :
    step (machine.grow size) = step machine := by
  have hpending : (machine.grow size).pending = machine.pending := by
    simp only [pending, memory_grow, pointer_grow]
  have houtcome (i : Instruction Int) : (machine.grow size).outcome i = machine.outcome i := by
    simp only [outcome, memory_grow, base_grow, inputs_grow]
  have hspan : max size (Instruction.span machine.memory machine.pointer) =
      Instruction.span machine.memory machine.pointer :=
    Nat.max_eq_right hsize
  have hextent (i : Instruction Int) :
      (machine.grow size).grow ((machine.grow size).extent i) =
        machine.grow (machine.extent i) := by
    simp only [extent, memory_grow, pointer_grow, base_grow, inputs_grow, grow_grow,
      ← Nat.max_assoc, hspan]
  rw [step_eq (by exact h), step_eq h]
  simp only [hpending, houtcome, after, hextent, memory_grow, pointer_grow, grow_grow, hspan,
    inputs_grow]

theorem head?_stock {machine : Machine} {value : Int} (h : machine.inputs.head? = some value)
    (values : List Int) : (machine.stock values).inputs.head? = some value := by
  simp only [Queue.head?] at h ⊢
  simp [stock, h]

theorem rest_stock {machine : Machine} {value : Int} (h : machine.inputs.head? = some value)
    (values : List Int) :
    (machine.stock values).inputs.rest =
      .ofList (machine.inputs.rest.toList ++ values) := by
  simp only [Queue.head?, Queue.rest] at h ⊢
  cases hlist : machine.inputs.toList with
  | nil => simp [hlist] at h
  | cons v vs => simp [stock, hlist]

theorem outcome_stock {machine : Machine} {i : Instruction Int} {effect : Effect}
    (harity : i.operands.length = i.op.arity) (h : machine.outcome i = .ok effect)
    (hwait : effect ≠ .wait) (values : List Int) :
    (machine.stock values).outcome i = .ok effect ∧
      (machine.stock values).extent i = machine.extent i := by
  by_cases hop : i.op = .input
  · obtain ⟨op, operands⟩ := i
    cases hop
    obtain ⟨destination, rfl⟩ := List.length_eq_one_iff.1 harity
    obtain ⟨address, -, ⟨-, rfl⟩ | ⟨value, hhead, -, -⟩⟩ := Instruction.reception_ok h
    · exact absurd rfl hwait
    · have hhead' := head?_stock hhead values
      simp only [outcome, extent, hhead, hhead'] at h ⊢
      exact ⟨h, rfl⟩
  · simp only [outcome, extent] at h ⊢
    rw [Instruction.effect_of_ne_input hop _ _ _ machine.inputs.head?,
      Instruction.reach_of_ne_input hop _ _ machine.inputs.head?]
    exact ⟨h, rfl⟩

theorem after_stock {machine : Machine} {i : Instruction Int} {effect : Effect}
    (h : machine.outcome i = .ok effect) {values : List Int}
    (hextent : (machine.stock values).extent i = machine.extent i) :
    (machine.stock values).after i effect = (machine.after i effect).stock values := by
  simp only [after, hextent]
  cases effect with
  | accept address value =>
    obtain ⟨destination, rfl, hreception⟩ := Instruction.input_of_effect h rfl
    obtain ⟨_, -, ⟨-, heffect⟩ | ⟨_, hhead, -, -⟩⟩ := Instruction.reception_ok hreception
    · cases heffect
    · simp only [Effect.commit, grow, rest_stock hhead values]
      rfl
  | _ => rfl

theorem step_stock {machine next : Machine} (h : machine.status = .running)
    (hstep : step machine = .ok () next) (hnext : next.status ≠ .awaitingInput)
    (values : List Int) : step (machine.stock values) = .ok () (next.stock values) := by
  obtain ⟨i, effect, hi, heffect, rfl⟩ := step_ok_of_running h hstep
  have hwait : effect ≠ .wait := by
    rintro rfl
    exact hnext rfl
  obtain ⟨houtcome, hextent⟩ :=
    outcome_stock (Instruction.length_of_standing hi) heffect hwait values
  have hstatus : (machine.stock values).status ≠ .terminated := by simp [h]
  have hpending : (machine.stock values).pending = .ok i := hi
  rw [step_of_outcome hstatus hpending houtcome, after_stock heffect hextent]

theorem head?_of_wait {machine : Machine} {i : Instruction Int}
    (h : machine.outcome i = .ok .wait) :
    (∃ destination, i = ⟨.input, [destination]⟩) ∧ machine.inputs.head? = none := by
  obtain ⟨destination, rfl, hreception⟩ := Instruction.input_of_effect h rfl
  obtain ⟨_, -, ⟨hhead, -⟩ | ⟨_, -, -, he⟩⟩ := Instruction.reception_ok hreception
  · exact ⟨⟨destination, rfl⟩, hhead⟩
  · cases he

theorem extent_of_empty {machine : Machine} (h : machine.inputs.head? = none)
    (operands : List (Operand Int)) :
    machine.extent ⟨.input, operands⟩ = Instruction.span machine.memory machine.pointer := by
  simp [extent, Instruction.reach, h]

theorem eq_of_step_awaiting {machine next : Machine} (h : machine.status = .running)
    (hstep : step machine = .ok () next) (hnext : next.status = .awaitingInput) :
    next = { machine.grow (Instruction.span machine.memory machine.pointer) with
      status := .awaitingInput } := by
  obtain ⟨i, effect, -, heffect, rfl⟩ := step_ok_of_running h hstep
  obtain rfl := eq_wait_of_awaiting h hnext
  obtain ⟨⟨destination, rfl⟩, hhead⟩ := head?_of_wait heffect
  rw [after, extent_of_empty hhead]
  rfl

def Prompt (machine : Machine) : Prop :=
  machine.status = .awaitingInput → machine.inputs = .empty

theorem Prompt.step {machine next : Machine} (h : machine.status = .running)
    (hstep : machine.step = .ok () next) : next.Prompt := by
  intro hnext
  obtain ⟨i, effect, -, heffect, rfl⟩ := step_ok_of_running h hstep
  obtain rfl := eq_wait_of_awaiting h hnext
  exact Queue.head?_eq_none.1 (head?_of_wait heffect).2

theorem Prompt.advance {machine next : Machine} {n : Nat} (h : machine.Prompt)
    (hadvance : machine.advance n = .ok () next) : next.Prompt := by
  induction hadvance using advance_induction with
  | rests _ _ => exact h
  | steps n machine _ between _ hrunning hstep ih => exact ih (.step hrunning hstep)

theorem Prompt.feedAll {machine : Machine} (h : machine.Prompt) (values : List Int) :
    (machine.feedAll values).Prompt := by
  by_cases hawaiting : machine.status = .awaitingInput
  · cases values with
    | nil => exact h
    | cons value values =>
      rw [feedAll_of_awaiting hawaiting]
      rintro ⟨⟩
  · rw [feedAll_of_awake hawaiting]
    intro hstocked
    exact absurd hstocked hawaiting

theorem step_of_woken {machine next : Machine} (h : machine.status = .running)
    (hstep : step machine = .ok () next) (hnext : next.status = .awaitingInput)
    (value : Int) (values : List Int) :
    step (next.feedAll (value :: values)) = step (machine.feedAll (value :: values)) := by
  have hawake : machine.status ≠ .awaitingInput := by simp [h]
  -- Waiting has only extended the tape, and no farther than fetching the instruction does.
  have hwoken : next.feedAll (value :: values) =
      (machine.stock (value :: values)).grow
        (Instruction.span machine.memory machine.pointer) := by
    rw [feedAll_of_awaiting hnext, eq_of_step_awaiting h hstep hnext]
    simp only [stock, grow, h]
  rw [hwoken, feedAll_of_awake hawake]
  exact step_grow (by simp [h]) (Nat.le_refl _)

theorem settles_feedAll_of_step {machine next : Machine}
    {result : EStateM.Result Fault Machine Unit} (h : machine.status = .running)
    (hstep : step machine = .ok () next) (values : List Int) :
    (next.feedAll values).Settles result ↔ (machine.feedAll values).Settles result := by
  have hawake : machine.status ≠ .awaitingInput := by simp [h]
  by_cases hnext : next.status = .awaitingInput
  · cases values with
    | nil => exact (settles_of_step h hstep).symm
    | cons value values =>
      apply settles_congr
      · rw [feedAll_of_awaiting hnext]
      · rw [feedAll_of_awake hawake]
        exact h
      · exact step_of_woken h hstep hnext value values
  · rw [feedAll_of_awake hawake, feedAll_of_awake hnext]
    exact (settles_of_step (by exact h) (step_stock h hstep hnext values)).symm

theorem settles_feedAll_of_settles {machine rested : Machine}
    (h : machine.Settles (.ok () rested)) (values : List Int)
    (result : EStateM.Result Fault Machine Unit) :
    (rested.feedAll values).Settles result ↔ (machine.feedAll values).Settles result := by
  induction h using Settles.induction with
  | rests machine _ _ heq =>
    cases heq
    exact Iff.rfl
  | faults machine _ fault next _ _ heq => cases heq
  | steps machine _ next _ hrunning hstep ih =>
    exact ih.trans (settles_feedAll_of_step hrunning hstep values)

theorem settles_of_stock {stocked : Machine} {result : EStateM.Result Fault Machine Unit}
    (h : stocked.Settles result) {values : List Int} {machine : Machine}
    (hstocked : machine.stock values = stocked) : ∃ result, machine.Settles result := by
  induction h using Settles.induction generalizing machine with
  | rests stocked _ hrests _ =>
    subst hstocked
    have hrests : machine.status ≠ .running := hrests
    exact ⟨_, (settles_of_rests hrests).2 rfl⟩
  | faults stocked _ fault last hrunning hfault _ =>
    subst hstocked
    have hrunning : machine.status = .running := hrunning
    apply settles_of_next hrunning
    intro next hstep
    -- Without the stock the machine takes the same step, unless it comes to wait and has settled.
    by_cases hnext : next.status = .awaitingInput
    · exact ⟨_, (settles_of_rests (by simp [hnext])).2 rfl⟩
    · rw [step_stock hrunning hstep hnext] at hfault
      cases hfault
  | steps stocked _ last _ hrunning hlast ih =>
    subst hstocked
    have hrunning : machine.status = .running := hrunning
    apply settles_of_next hrunning
    intro next hstep
    by_cases hnext : next.status = .awaitingInput
    · exact ⟨_, (settles_of_rests (by simp [hnext])).2 rfl⟩
    · rw [step_stock hrunning hstep hnext] at hlast
      cases hlast
      exact ih rfl

theorem settles_of_feedAll {machine : Machine} {values : List Int}
    {result : EStateM.Result Fault Machine Unit} (h : (machine.feedAll values).Settles result) :
    ∃ result, machine.Settles result := by
  by_cases hawaiting : machine.status = .awaitingInput
  · exact ⟨_, (settles_of_rests (by simp [hawaiting])).2 rfl⟩
  · exact settles_of_stock h (feedAll_of_awake hawaiting values).symm

/-- What feeding portion by portion comes to, with a run to rest after each of them but the last,
whose run may come to anything. -/
inductive Portions : Machine → List (List Int) → EStateM.Result Fault Machine Unit → Prop
  | last {machine values result} : (machine.feedAll values).Settles result →
      Portions machine [values] result
  | rested {machine values rested portion portions result} :
      (machine.feedAll values).Settles (.ok () rested) →
      Portions rested (portion :: portions) result →
      Portions machine (values :: portion :: portions) result

def FaultsOnlyAtLast : Machine → List (List Int) → Prop
  | machine, values :: portion :: portions =>
    (∀ fault next, ¬ (machine.feedAll values).Settles (.error fault next)) ∧
    ∀ rested, (machine.feedAll values).Settles (.ok () rested) →
      FaultsOnlyAtLast rested (portion :: portions)
  | _, _ => True

theorem portions_iff {portions : List (List Int)} (hne : portions ≠ []) {machine : Machine}
    (h : machine.FaultsOnlyAtLast portions) (result : EStateM.Result Fault Machine Unit) :
    machine.Portions portions result ↔ (machine.feedAll portions.flatten).Settles result := by
  induction portions generalizing machine with
  | nil => exact absurd rfl hne
  | cons values portions ih =>
    cases portions with
    | nil =>
      rw [List.flatten_cons, List.flatten_nil, List.append_nil]
      constructor
      · rintro ⟨hlast⟩
        exact hlast
      · exact .last
    | cons portion portions =>
      rw [List.flatten_cons, feedAll_append]
      constructor
      · intro hportions
        cases hportions with
        | rested hrested hrest =>
          rw [← settles_feedAll_of_settles hrested, ← ih (List.cons_ne_nil _ _) (h.2 _ hrested)]
          exact hrest
      · intro hsettles
        -- The first portion alone comes to an end because all portions together do.
        obtain ⟨first, hfirst⟩ := settles_of_feedAll hsettles
        cases first with
        | error fault next => exact absurd hfirst (h.1 fault next)
        | ok _ rested =>
          apply Portions.rested hfirst
          rw [ih (List.cons_ne_nil _ _) (h.2 rested hfirst), settles_feedAll_of_settles hfirst]
          exact hsettles

/-- Waiting is transparent: whether values are handed to a machine before a run or when the run
has come to rest, in whatever portions, it comes to the same machine, fault or endless run. -/
theorem suspension_transparent (machine : Machine) :
    (∀ xs ys rested, (machine.feedAll xs).Settles (.ok () rested) → ∀ result,
      (rested.feedAll ys).Settles result ↔ (machine.feedAll (xs ++ ys)).Settles result) ∧
    ∀ portions, portions ≠ [] → machine.FaultsOnlyAtLast portions → ∀ result,
      machine.Portions portions result ↔ (machine.feedAll portions.flatten).Settles result := by
  constructor
  · intro xs ys rested h result
    rw [feedAll_append]
    exact settles_feedAll_of_settles h ys result
  · intro portions hne h result
    exact portions_iff hne h result

theorem suspension_transparent_waiting :
    ((load [3, 0, 3] []).feedAll [5]).Settles
      (.ok () ⟨.ofList [5, 0, 3, 0], 2, 0, .awaitingInput, 1, .empty, .empty⟩) ∧
    ((load [3, 0, 3] []).feedAll ([5] ++ [7])).Settles
      (.error (.unknownOpcode 0 (some 4))
        ⟨.ofList [7, 0, 3, 0, 0], 4, 0, .running, 2, .empty, .empty⟩) ∧
    (load [3, 0, 3] []).FaultsOnlyAtLast [[5], [7]] ∧
    (load [3, 0, 3] []).Portions [[5], [7]]
      (.error (.unknownOpcode 0 (some 4))
        ⟨.ofList [7, 0, 3, 0, 0], 4, 0, .running, 2, .empty, .empty⟩) := by
  have hfirst : ((load [3, 0, 3] []).feedAll [5]).Settles
      (.ok () ⟨.ofList [5, 0, 3, 0], 2, 0, .awaitingInput, 1, .empty, .empty⟩) :=
    ⟨2, rfl⟩
  have hall : ((load [3, 0, 3] []).feedAll ([5] ++ [7])).Settles
      (.error (.unknownOpcode 0 (some 4))
        ⟨.ofList [7, 0, 3, 0, 0], 4, 0, .running, 2, .empty, .empty⟩) :=
    ((suspension_transparent _).1 [5] [7] _ hfirst _).1 ⟨3, rfl⟩
  have hfaults : (load [3, 0, 3] []).FaultsOnlyAtLast [[5], [7]] := by
    constructor
    · intro fault next h
      cases hfirst.unique h
    · intro rested h
      trivial
  exact ⟨hfirst, hall, hfaults,
    ((suspension_transparent _).2 [[5], [7]] (by simp) hfaults _).2 hall⟩

end TapeMachine.Machine
