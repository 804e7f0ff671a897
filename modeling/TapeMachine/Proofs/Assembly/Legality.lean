import TapeMachine.Proofs.Assembly.Reassembly
import TapeMachine.Proofs.Machine.Table

namespace TapeMachine

def Fault.OffTape (fault : Fault) : Prop :=
  ∃ address, address < 0 ∧ fault = .negativeAddress address

section

variable {memory : Int → Int} {base : Int} {fault : Fault}

theorem Operand.offTape_of_content {operand : Operand Int}
    (h : operand.content memory base = .error fault) : fault.OffTape := by
  simp only [content] at h
  split at h
  · next address _ =>
    simp only [look] at h
    split at h
    · next hneg => exact ⟨address, hneg, (Except.error.inj h).symm⟩
    · cases h
  · cases h

namespace Instruction

theorem offTape_of_onCell {address : Int} {effect : Effect}
    (h : onCell address effect = .error fault) : fault.OffTape := by
  simp only [onCell] at h
  split at h
  · next hneg => exact ⟨address, hneg, (Except.error.inj h).symm⟩
  · cases h

theorem combination_error {f : Int → Int → Int} {a b destination : Operand Int}
    (h : combination memory base f a b destination = .error fault) :
    fault.OffTape ∨ destination.mode = .immediate := by
  simp only [combination] at h
  split at h
  · next hx =>
    cases h
    exact .inl (Operand.offTape_of_content hx)
  · split at h
    · next hy =>
      cases h
      exact .inl (Operand.offTape_of_content hy)
    · split at h
      · next hc => exact .inr (Machine.mode_of_address_error hc)
      · exact .inl (offTape_of_onCell h)

theorem branching_error {taken : Int → Bool} {condition goal : Operand Int}
    (h : branching memory base taken condition goal = .error fault) : fault.OffTape := by
  simp only [branching] at h
  split at h
  · next hx =>
    cases h
    exact Operand.offTape_of_content hx
  · split at h
    · next hy =>
      cases h
      exact Operand.offTape_of_content hy
    · split at h
      · exact offTape_of_onCell h
      · cases h

theorem reception_error {next? : Option Int} {destination : Operand Int}
    (h : reception base next? destination = .error fault) :
    fault.OffTape ∨ destination.mode = .immediate := by
  simp only [reception] at h
  split at h
  · next hc => exact .inr (Machine.mode_of_address_error hc)
  · split at h
    · cases h
    · exact .inl (offTape_of_onCell h)

theorem map_content_error {operand : Operand Int} {effect : Int → Effect}
    (h : (operand.content memory base).map effect = .error fault) : fault.OffTape := by
  cases hx : operand.content memory base with
  | error cause =>
    rw [hx] at h
    cases h
    exact Operand.offTape_of_content hx
  | ok x =>
    rw [hx] at h
    cases h

section

variable {i : Instruction Int} {next? : Option Int} (harity : i.operands.length = i.op.arity)

include harity

theorem effect_error (h : i.effect memory base next? = .error fault) :
    fault.OffTape ∨ i.storesImmediate = true := by
  obtain ⟨op, operands⟩ := i
  cases op with
  | add | mul | less | equal =>
    obtain ⟨a, b, c, rfl⟩ := List.length_eq_three.1 harity
    exact (combination_error h).imp_right fun hmode => decide_eq_true hmode
  | jumpTrue | jumpFalse =>
    obtain ⟨a, b, rfl⟩ := List.length_eq_two.1 harity
    exact .inl (branching_error h)
  | input =>
    obtain ⟨a, rfl⟩ := List.length_eq_one_iff.1 harity
    exact (reception_error h).imp_right fun hmode => decide_eq_true hmode
  | output | adjustBase =>
    obtain ⟨a, rfl⟩ := List.length_eq_one_iff.1 harity
    exact .inl (map_content_error h)
  | halt =>
    obtain rfl := List.length_eq_zero_iff.1 harity
    cases h

theorem storesImmediate_of_effect {e : Effect} (h : i.effect memory base next? = .ok e) :
    i.storesImmediate = false := by
  obtain ⟨op, operands⟩ := i
  cases op with
  | add | mul | less | equal =>
    obtain ⟨a, b, c, rfl⟩ := List.length_eq_three.1 harity
    obtain ⟨_, _, _, -, -, hc, -, -⟩ := combination_ok h
    exact decide_eq_false (Machine.mode_of_address_ok hc)
  | input =>
    obtain ⟨a, rfl⟩ := List.length_eq_one_iff.1 harity
    obtain ⟨_, hc, -⟩ := reception_ok h
    exact decide_eq_false (Machine.mode_of_address_ok hc)
  | output | jumpTrue | jumpFalse | adjustBase | halt => rfl

end

end Instruction

end

def Holds (memory : Int → Int) : (address : Int) → List Int → Prop
  | _, [] => True
  | address, word :: words => memory address = word ∧ Holds memory (address + 1) words

theorem Operand.listed_of_holds {memory : Int → Int} {operands : List (Operand Int)}
    {address : Int} (h : Holds memory address (operands.map Operand.value)) :
    listed memory (operands.map Operand.mode) address = operands := by
  induction operands generalizing address with
  | nil => rfl
  | cons operand operands ih =>
    obtain ⟨hvalue, hrest⟩ := h
    simp only [List.map_cons, listed, ih hrest, hvalue]

def Instruction.words (i : Instruction Int) : List Int := encode i.op i.modes :: i.values

theorem Instruction.standing_of_holds {memory : Int → Int} {address : Int} {i : Instruction Int}
    (harity : i.operands.length = i.op.arity) (h : 0 ≤ address)
    (hholds : Holds memory address i.words) : standing memory address = .ok i := by
  obtain ⟨hword, hvalues⟩ := hholds
  have hmodes : i.modes.length = i.op.arity := i.length_modes.trans harity
  apply (standing_eq_ok h).2
  refine ⟨i.op, i.modes, ?_, ?_⟩
  · rw [hword, decode_encode hmodes]
  · rw [modes, Operand.listed_of_holds hvalues]

namespace Machine

/-- The next step comes upon the words of `i`. -/
structure Faces (machine : Machine) (i : Instruction Int) : Prop where
  live : machine.status ≠ .terminated
  pointer : 0 ≤ machine.pointer
  holds : Holds machine.memory machine.pointer i.words

section

variable {machine : Machine} {i : Instruction Int} (h : machine.Faces i)
  (harity : i.operands.length = i.op.arity)

include h harity

theorem Faces.pending : machine.pending = .ok i :=
  Instruction.standing_of_holds harity h.pointer h.holds

theorem Faces.fetch :
    onTape (Instruction.read machine.pointer) machine =
      .ok i (machine.grow (Tape.reach machine.pointer + i.op.arity)) := by
  have hi : Instruction.standing machine.memory machine.pointer = .ok i := h.pending harity
  simp only [fetch_eq, Instruction.span, hi, harity]
  rfl

theorem Faces.offTape_of_step {next : Machine} {fault : Fault} (hlegal : i.storesImmediate = false)
    (hstep : step machine = .error fault next) : fault.OffTape := by
  have hi := h.pending harity
  obtain ⟨hfault, -⟩ | ⟨j, hj, hfault, -⟩ := step_error_cases hstep
  · rw [hi] at hfault
    cases hfault
  · obtain rfl := Except.ok.inj (hi.symm.trans hj)
    obtain hofftape | himmediate := Instruction.effect_error harity hfault
    · exact hofftape
    · rw [hlegal] at himmediate
      cases himmediate

theorem Faces.step_error (hillegal : i.storesImmediate = true) :
    ∃ fault next, step machine = .error fault next := by
  have hi := h.pending harity
  cases houtcome : machine.outcome i with
  | error fault => exact ⟨fault, _, step_of_outcome_error h.live hi houtcome⟩
  | ok effect =>
    rw [Instruction.storesImmediate_of_effect harity houtcome] at hillegal
    cases hillegal

end

end Machine

namespace Assembly

theorem issue_literal (draft : Draft) {i : Instruction Int}
    (harity : i.operands.length = i.op.arity) :
    draft.issue (literalInstruction i) =
      if i.storesImmediate then .error (.immediateDestination i.op draft.offset)
      else .ok (draft.append (i.words.map .literal)) := by
  have hterms : instructionTerms (literalInstruction i) = i.words.map .literal := by
    rw [instructionTerms, modes_literal, values_literal]
    rfl
  have hlacks := lacksDestination_eq_false ((length_literal i).trans harity)
  simp only [Draft.issue, hlacks, storesImmediate_literal, hterms]
  rfl

/-- What the assembler issues is read back by every machine that comes upon it and faults at most
for a negative address; the words of what it refuses make every machine fault. -/
theorem issue_agrees (draft : Draft) (i : Instruction Int)
    (harity : i.operands.length = i.op.arity) :
    (∀ next, draft.issue (literalInstruction i) = .ok next →
      next = draft.append (i.words.map .literal) ∧
      ∀ machine : Machine, machine.Faces i →
        Machine.onTape (Instruction.read machine.pointer) machine =
          .ok i (machine.grow (Tape.reach machine.pointer + i.op.arity)) ∧
        ∀ fault left, machine.step = .error fault left → fault.OffTape) ∧
    ∀ error, draft.issue (literalInstruction i) = .error error →
      ∀ machine : Machine, machine.Faces i → ∃ fault left, machine.step = .error fault left := by
  rw [issue_literal draft harity]
  cases hstores : i.storesImmediate with
  | false =>
    refine ⟨?_, ?_⟩
    · intro next hissue
      refine ⟨(Except.ok.inj hissue).symm, ?_⟩
      intro machine hfaces
      exact ⟨hfaces.fetch harity, fun fault left => hfaces.offTape_of_step harity hstores⟩
    · intro error hissue
      cases hissue
  | true =>
    refine ⟨?_, ?_⟩
    · intro next hissue
      cases hissue
    · intro error _ machine hfaces
      exact hfaces.step_error harity hstores

theorem issue_agrees_refused :
    Machine.onTape (Instruction.read 1)
        ⟨.ofList [0, 20107, 7, -2], 1, 3, .running, 0, .empty, .empty⟩ =
      .ok ⟨.less, [⟨.immediate, 7⟩, ⟨.position, -2⟩, ⟨.relative, 0⟩]⟩
        ⟨.ofList [0, 20107, 7, -2, 0], 1, 3, .running, 0, .empty, .empty⟩ ∧
    Fault.OffTape (.negativeAddress (-2)) ∧
    ∃ fault left, Machine.step ⟨.ofList [103, 5], 0, 0, .running, 0, .empty, .empty⟩ =
      .error fault left := by
  obtain ⟨hissued, -⟩ := issue_agrees .empty
    ⟨.less, [⟨.immediate, 7⟩, ⟨.position, -2⟩, ⟨.relative, 0⟩]⟩ rfl
  obtain ⟨-, hlegal⟩ := hissued _ rfl
  obtain ⟨hfetch, hfaults⟩ := hlegal
    ⟨.ofList [0, 20107, 7, -2], 1, 3, .running, 0, .empty, .empty⟩
    ⟨by decide, by decide, rfl, rfl, rfl, rfl, trivial⟩
  obtain ⟨-, hrefused⟩ := issue_agrees .empty ⟨.input, [⟨.immediate, 5⟩]⟩ rfl
  exact ⟨hfetch, hfaults _ _ rfl, hrefused (.immediateDestination .input 0) rfl
    ⟨.ofList [103, 5], 0, 0, .running, 0, .empty, .empty⟩
    ⟨by decide, by decide, rfl, rfl, trivial⟩⟩

end Assembly

end TapeMachine
