import TapeMachine.Proofs.Machine.Output
import TapeMachine.Proofs.Machine.Suspension

/-!
Machines that are fed bit by bit and whose outputs are taken away. What such a machine has emitted
so far is what its program emits in some number of steps if it finds all that was fed in its queue
from the start (`Replays`). Hence of two machines with the same program, one of which was fed what
the other was and more, one has emitted what the other has and more (`Replays.comparable`).
-/

namespace TapeMachine

namespace View

/-- What the steps to come depend on: neither the outputs nor whether the machine already knows that
it waits. -/
def core (view : View) : View :=
  { view with
    status := if view.status = .awaitingInput then .running else view.status
    outputs := .empty }

def stock (view : View) (values : List Int) : View :=
  { view with inputs := .ofList (view.inputs.toList ++ values) }

theorem core_status (view : View) (h : view.status ≠ .awaitingInput) :
    view.core.status = view.status :=
  if_neg h

theorem core_status_eq_terminated {view : View} :
    view.core.status = .terminated ↔ view.status = .terminated := by
  cases h : view.status <;> simp [core, h]

theorem core_after (view : View) (h : view.status = .running) (i : Instruction Int)
    (effect : Effect) : (view.after i effect).core = (view.core.after i effect).core := by
  obtain ⟨memory, pointer, base, status, steps, inputs, outputs⟩ := view
  cases h
  cases effect <;> rfl

theorem core_after_wait {view : View} (h : view.status = .running) (i : Instruction Int) :
    (view.after i .wait).core = view.core := by
  obtain ⟨memory, pointer, base, status, steps, inputs, outputs⟩ := view
  cases h
  rfl

end View

namespace Machine

theorem advance_stock {machine next : Machine} {n : Nat} (h : advance n machine = .ok () next)
    (hnext : next.status ≠ .awaitingInput) (values : List Int) :
    ∃ m, advance m (machine.stock values) = .ok () (next.stock values) := by
  induction h using advance_induction with
  | rests n h => exact ⟨0, rfl⟩
  | steps n machine h between hbetween hrunning hstep ih =>
    have hawake : between.status ≠ .awaitingInput := by
      intro hawaiting
      rw [advance_of_rests (by simp [hawaiting])] at hbetween
      cases hbetween
      exact hnext hawaiting
    obtain ⟨m, hm⟩ := ih
    refine ⟨m + 1, ?_⟩
    rw [advance_of_step (by exact hrunning) (step_stock hrunning hstep hawake values)]
    exact hm

theorem core_stock (machine : Machine) (values : List Int) :
    (machine.stock values).view.core = machine.view.core.stock values :=
  rfl

theorem core_feedAll (machine : Machine) (values : List Int) :
    (machine.feedAll values).view.core = (machine.stock values).view.core := by
  by_cases h : machine.status = .awaitingInput
  · cases values with
    | nil => rw [stock_nil]; rfl
    | cons value values =>
      rw [feedAll_of_awaiting h]
      obtain ⟨tape, pointer, base, status, steps, inputs, outputs⟩ := machine
      cases h
      rfl
  · rw [feedAll_of_awake h]

theorem feedAll_terminated {machine : Machine} {values : List Int} :
    (machine.feedAll values).status = .terminated ↔ machine.status = .terminated := by
  have h := congrArg View.status (core_feedAll machine values)
  exact View.core_status_eq_terminated.symm.trans
    ((Eq.congr_left h).trans View.core_status_eq_terminated)

theorem outputs_feedAll (machine : Machine) (values : List Int) :
    (machine.feedAll values).outputs = machine.outputs := by
  induction values generalizing machine with
  | nil => rfl
  | cons value values ih => exact ih (machine.feed value)

/-- A machine that started with the program, was fed some values and has emitted some. The machine
reached does not know yet whether it waits, so it comes to the same with more in its queue. -/
def Replays (program fed emitted : List Int) (machine : Machine) : Prop :=
  ∃ n reached, advance n (load program fed) = .ok () reached ∧
    reached.status ≠ .awaitingInput ∧ reached.outputs.toList = emitted ∧
    machine.view.core = reached.view.core

namespace Replays

variable {program fed emitted : List Int} {machine next : Machine}

protected theorem load (program fed : List Int) : (load program fed).Replays program fed [] :=
  ⟨0, _, rfl, by rintro ⟨⟩, rfl, rfl⟩

theorem of_core (h : machine.Replays program fed emitted)
    (hcore : next.view.core = machine.view.core) : next.Replays program fed emitted := by
  obtain ⟨n, reached, hadvance, hawake, houtputs, hreached⟩ := h
  exact ⟨n, reached, hadvance, hawake, houtputs, hcore.trans hreached⟩

theorem takeOutputs (h : machine.Replays program fed emitted) :
    machine.takeOutputs.2.Replays program fed emitted :=
  h.of_core rfl

protected theorem stock (h : machine.Replays program fed emitted) (values : List Int) :
    (machine.stock values).Replays program (fed ++ values) emitted := by
  obtain ⟨n, reached, hadvance, hawake, houtputs, hcore⟩ := h
  obtain ⟨m, hm⟩ := advance_stock hadvance hawake values
  refine ⟨m, reached.stock values, hm, hawake, houtputs, ?_⟩
  rw [core_stock, core_stock, hcore]

protected theorem feedAll (h : machine.Replays program fed emitted) (values : List Int) :
    (machine.feedAll values).Replays program (fed ++ values) emitted :=
  (h.stock values).of_core (core_feedAll machine values)

protected theorem step (h : machine.Replays program fed emitted)
    (hrunning : machine.status = .running) (hstep : step machine = .ok () next) :
    ∃ new, next.outputs.toList = machine.outputs.toList ++ new ∧
      next.Replays program fed (emitted ++ new) := by
  obtain ⟨n, reached, hadvance, hawake, rfl, hcore⟩ := h
  obtain ⟨i, effect, hi, heffect, rfl⟩ := step_ok_of_running hrunning hstep
  refine ⟨effect.emitted, outputs_after machine i effect, ?_⟩
  have hreached : reached.status = .running :=
    calc reached.status = reached.view.core.status := (View.core_status reached.view hawake).symm
      _ = machine.view.core.status := congrArg View.status hcore.symm
      _ = machine.status := View.core_status machine.view (by simp [view, hrunning])
      _ = .running := hrunning
  have hi' : reached.pending = .ok i := by
    rw [← hi]
    exact congrArg View.pending hcore.symm
  have heffect' : reached.outcome i = .ok effect := by
    rw [← heffect]
    exact congrArg (fun view : View => view.outcome i) hcore.symm
  -- The machine reached stays in front of an input that waits, so that it can still be fed there.
  by_cases hwait : effect = .wait
  · subst hwait
    refine ⟨n, reached, hadvance, hawake, (List.append_nil _).symm, ?_⟩
    rw [view_after heffect, View.core_after_wait hrunning]
    exact hcore
  · refine ⟨n + 1, reached.after i effect, ?_, ?_, outputs_after reached i effect, ?_⟩
    · rw [advance_add, hadvance]
      exact advance_of_step hreached (step_of_outcome (by simp [hreached]) hi' heffect') 0
    · exact fun hawaiting => hwait (eq_wait_of_awaiting hreached hawaiting)
    · rw [view_after heffect, view_after heffect', View.core_after machine.view hrunning,
        View.core_after reached.view hreached, hcore]

protected theorem advance {n : Nat} (h : machine.Replays program fed emitted)
    (hadvance : advance n machine = .ok () next) :
    ∃ new, next.outputs.toList = machine.outputs.toList ++ new ∧
      next.Replays program fed (emitted ++ new) := by
  induction hadvance using advance_induction generalizing emitted with
  | rests n _ => exact ⟨[], (List.append_nil _).symm, by rwa [List.append_nil]⟩
  | steps n machine _ between _ hrunning hstep ih =>
    obtain ⟨first, hfirst, hbetween⟩ := h.step hrunning hstep
    obtain ⟨rest, hrest, hnext⟩ := ih hbetween
    refine ⟨first ++ rest, ?_, ?_⟩
    · rw [hrest, hfirst, List.append_assoc]
    · rwa [← List.append_assoc]

theorem comparable_of_same {machine' : Machine} {emitted' : List Int}
    (h : machine.Replays program fed emitted) (h' : machine'.Replays program fed emitted') :
    (emitted <+: emitted' ∨ emitted' <+: emitted) ∧
      (machine'.status = .terminated → emitted <+: emitted') := by
  obtain ⟨m, reached, hadvance, -, rfl, -⟩ := h
  obtain ⟨n, reached', hadvance', -, rfl, hcore'⟩ := h'
  obtain hle | hle := Nat.le_total m n
  · obtain ⟨k, rfl⟩ := Nat.exists_eq_add_of_le hle
    rw [advance_add, hadvance] at hadvance'
    have houtputs := prefix_of_advance hadvance'
    exact ⟨.inl houtputs, fun _ => houtputs⟩
  · obtain ⟨k, rfl⟩ := Nat.exists_eq_add_of_le hle
    rw [advance_add, hadvance'] at hadvance
    refine ⟨.inr (prefix_of_advance hadvance), ?_⟩
    intro hterminated
    have hreached' : reached'.status = .terminated :=
      View.core_status_eq_terminated.1 (hcore' ▸ View.core_status_eq_terminated.2 hterminated)
    have hend : advance k reached' = .ok () reached' := advance_of_rests (by simp [hreached']) k
    have hsame := hend.symm.trans hadvance
    cases hsame
    exact List.prefix_refl _

theorem comparable {fed' emitted' : List Int} {machine' : Machine}
    (h : machine.Replays program fed emitted) (h' : machine'.Replays program fed' emitted')
    (hfed : fed <+: fed' ∨ fed' <+: fed) :
    (emitted <+: emitted' ∨ emitted' <+: emitted) ∧
      (machine'.status = .terminated → emitted <+: emitted') := by
  obtain ⟨values, rfl⟩ | ⟨values, rfl⟩ := hfed
  · exact (h.stock values).comparable_of_same h'
  · have hsame := h.comparable_of_same (h'.stock values)
    exact hsame

end Replays

end Machine

end TapeMachine
