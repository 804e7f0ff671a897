import TapeMachine.Proofs.Machine.Atomicity
import TapeMachine.Proofs.Machine.Session
import TapeMachine.Proofs.Machine.Table

namespace TapeMachine

def Effect.emitted : Effect → List Int
  | emit value => [value]
  | store _ _ | accept _ _ | wait | jump _ | pass | adjust _ | halt => []

theorem Instruction.emitted_of_effect {memory : Int → Int} {base : Int} {next? : Option Int}
    {i : Instruction Int} {e : Effect} (h : i.effect memory base next? = .ok e) :
    (∃ source x, i = ⟨.output, [source]⟩ ∧ source.content memory base = .ok x ∧ e = .emit x) ∨
    (∀ source, i ≠ ⟨.output, [source]⟩) ∧ e.emitted = [] := by
  unfold effect at h
  split at h
  case h_8 source =>
    obtain ⟨x, hx, he⟩ := map_content_ok h
    exact .inl ⟨source, x, rfl, hx, he⟩
  case h_1 | h_2 | h_3 | h_4 =>
    obtain ⟨_, _, _, -, -, -, -, rfl⟩ := combination_ok h
    exact .inr ⟨by simp, rfl⟩
  case h_5 | h_6 =>
    obtain ⟨_, _, -, -, ⟨-, -, rfl⟩ | ⟨-, rfl⟩⟩ := branching_ok h <;> exact .inr ⟨by simp, rfl⟩
  case h_7 =>
    obtain ⟨_, -, ⟨-, rfl⟩ | ⟨_, -, -, rfl⟩⟩ := reception_ok h <;> exact .inr ⟨by simp, rfl⟩
  case h_9 =>
    obtain ⟨_, -, rfl⟩ := map_content_ok h
    exact .inr ⟨by simp, rfl⟩
  case h_10 =>
    cases h
    exact .inr ⟨by simp, rfl⟩
  case h_11 _ _ _ _ _ _ _ houtput _ _ =>
    cases h
    exact .inr ⟨houtput, rfl⟩

namespace Machine

theorem outputs_after (machine : Machine) (i : Instruction Int) (effect : Effect) :
    (machine.after i effect).outputs.toList = machine.outputs.toList ++ effect.emitted := by
  cases effect with
  | emit value => exact Queue.toList_push machine.outputs value
  | _ => exact (List.append_nil _).symm

/-- What the next step emits if it completes an output: its operand, as the tape shows it. -/
def emitted (machine : Machine) : List Int :=
  if machine.status = .terminated then []
  else
    match machine.pending, machine.step with
    | .ok ⟨.output, [source]⟩, .ok () _ => [machine.view.value source]
    | _, _ => []

theorem emitted_of_terminated {machine : Machine} (h : machine.status = .terminated) :
    machine.emitted = [] :=
  if_pos h

theorem emitted_of_error {machine next : Machine} {fault : Fault}
    (h : machine.step = .error fault next) : machine.emitted = [] := by
  simp only [emitted, h]
  split
  · rfl
  · split
    · next heq => cases heq
    · rfl

theorem emitted_of_outcome {machine : Machine} {i : Instruction Int} {effect : Effect}
    (hlive : machine.status ≠ .terminated) (hi : machine.pending = .ok i)
    (heffect : machine.outcome i = .ok effect) : machine.emitted = effect.emitted := by
  have hstep := step_of_outcome hlive hi heffect
  simp only [emitted, if_neg hlive, hi, hstep]
  obtain ⟨source, x, rfl, hx, rfl⟩ | ⟨hother, hnone⟩ := Instruction.emitted_of_effect heffect
  · have hx : source.content machine.view.memory machine.view.base = .ok x := hx
    exact congrArg (fun value => [value]) (View.content_ok_iff.1 hx).2
  · rw [hnone]
    split
    · next source _ heq _ => exact absurd (Except.ok.inj heq) (hother source)
    · rfl

theorem step_outputs (machine : Machine) :
    (remaining machine.step).outputs.toList = machine.outputs.toList ++ machine.emitted := by
  cases hstep : machine.step with
  | error fault next =>
    rw [emitted_of_error hstep, List.append_nil]
    exact congrArg Queue.toList (unchanged_of_step_error hstep).outputs
  | ok _ next =>
    obtain ⟨hterminated, rfl⟩ | ⟨i, effect, hlive, hi, heffect, rfl⟩ := step_ok_cases hstep
    · rw [emitted_of_terminated hterminated, List.append_nil]
      rfl
    · rw [emitted_of_outcome hlive hi heffect]
      exact outputs_after machine i effect

theorem advance_outputs (n : Nat) (machine : Machine) :
    (remaining (advance n machine)).outputs.toList =
      machine.outputs.toList ++ (visited n machine).flatMap emitted := by
  refine visited_induction ?rests ?steps n machine
  case rests =>
    intro machine
    exact (List.append_nil _).symm
  case steps =>
    intro machine machines last _ ih
    rw [ih, step_outputs, List.flatMap_cons, List.append_assoc]

theorem prefix_of_advance {machine next : Machine} {n : Nat}
    (h : advance n machine = .ok () next) : machine.outputs.toList <+: next.outputs.toList := by
  have houtputs := advance_outputs n machine
  rw [h] at houtputs
  exact ⟨_, houtputs.symm⟩

end Machine

end TapeMachine
