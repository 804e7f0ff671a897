import TapeMachine.Proofs.Machine.View

namespace TapeMachine

namespace View

def value (view : View) (operand : Operand Int) : Int :=
  match operand.mode with
  | .position => view.memory operand.value
  | .immediate => operand.value
  | .relative => view.memory (view.base + operand.value)

def store (view : View) (destination : Operand Int) (value : Int) : View :=
  match destination.mode with
  | .position => { view with memory := Function.update view.memory destination.value value }
  | .relative =>
    { view with memory := Function.update view.memory (view.base + destination.value) value }
  | .immediate => view

def proceed (view : View) (count : Nat) : View :=
  { view with pointer := view.pointer + ↑(count + 1), steps := view.steps + 1 }

def goTo (view : View) (address : Int) : View :=
  { view with pointer := address, steps := view.steps + 1 }

/-- The instruction table. -/
def execute (view : View) : Instruction Int → View
  | ⟨.add, [a, b, c]⟩ => (view.store c (view.value a + view.value b)).proceed 3
  | ⟨.mul, [a, b, c]⟩ => (view.store c (view.value a * view.value b)).proceed 3
  | ⟨.less, [a, b, c]⟩ =>
    (view.store c (if view.value a < view.value b then 1 else 0)).proceed 3
  | ⟨.equal, [a, b, c]⟩ =>
    (view.store c (if view.value a = view.value b then 1 else 0)).proceed 3
  | ⟨.input, [a]⟩ =>
    match view.inputs.pop? with
    | none => { view with status := .awaitingInput }
    | some (value, rest) => ({ view with inputs := rest }.store a value).proceed 1
  | ⟨.output, [a]⟩ => { view with outputs := view.outputs.push (view.value a) }.proceed 1
  | ⟨.jumpTrue, [a, b]⟩ =>
    if view.value a ≠ 0 then view.goTo (view.value b) else view.proceed 2
  | ⟨.jumpFalse, [a, b]⟩ =>
    if view.value a = 0 then view.goTo (view.value b) else view.proceed 2
  | ⟨.adjustBase, [a]⟩ => { view with base := view.base + view.value a }.proceed 1
  | ⟨.halt, []⟩ => { view with status := .terminated }.goTo view.pointer
  | _ => view

def Readable (view : View) (operand : Operand Int) : Prop :=
  ∀ address, operand.cell? view.base = some address → 0 ≤ address

def Writable (view : View) (operand : Operand Int) : Prop :=
  ∃ address, operand.cell? view.base = some address ∧ 0 ≤ address

def Admits (view : View) : Instruction Int → Prop
  | ⟨.add, [a, b, c]⟩ | ⟨.mul, [a, b, c]⟩ | ⟨.less, [a, b, c]⟩ | ⟨.equal, [a, b, c]⟩ =>
    view.Readable a ∧ view.Readable b ∧ view.Writable c
  | ⟨.input, [a]⟩ => a.mode ≠ .immediate ∧ (view.inputs.pop? = none ∨ view.Writable a)
  | ⟨.jumpTrue, [a, b]⟩ =>
    view.Readable a ∧ view.Readable b ∧ (view.value a ≠ 0 → 0 ≤ view.value b)
  | ⟨.jumpFalse, [a, b]⟩ =>
    view.Readable a ∧ view.Readable b ∧ (view.value a = 0 → 0 ≤ view.value b)
  | ⟨.output, [a]⟩ | ⟨.adjustBase, [a]⟩ => view.Readable a
  | ⟨.halt, []⟩ => True
  | _ => False

theorem content_ok_iff {view : View} {operand : Operand Int} {x : Int} :
    operand.content view.memory view.base = .ok x ↔
      view.Readable operand ∧ view.value operand = x := by
  obtain ⟨mode, value⟩ := operand
  cases mode with
  | immediate => simp [Operand.content, Operand.cell?, Readable, View.value]
  | position | relative =>
    simp only [Operand.content, Operand.cell?, Readable, View.value, look, Option.some.injEq,
      forall_eq']
    split
    · next h => simp [Int.not_le.2 h]
    · next h => simp [Int.not_lt.1 h]

theorem writable_iff {view : View} {operand : Operand Int} :
    view.Writable operand ↔ ∃ address, operand.address view.base = .ok address ∧ 0 ≤ address := by
  obtain ⟨mode, value⟩ := operand
  cases mode <;> simp [Writable, Operand.cell?, Operand.address]

section

variable {view : View} {f : Int → Int → Int} {taken : Int → Bool} {a b c : Operand Int}
  {e : Effect}

theorem exists_combination :
    (∃ e, Instruction.combination view.memory view.base f a b c = .ok e) ↔
      view.Readable a ∧ view.Readable b ∧ view.Writable c := by
  constructor
  · rintro ⟨e, h⟩
    obtain ⟨x, y, address, hx, hy, hc, hnonneg, -⟩ := Instruction.combination_ok h
    exact ⟨(content_ok_iff.1 hx).1, (content_ok_iff.1 hy).1, writable_iff.2 ⟨address, hc, hnonneg⟩⟩
  · rintro ⟨ha, hb, hc⟩
    obtain ⟨address, haddress, hnonneg⟩ := writable_iff.1 hc
    have hx := content_ok_iff.2 ⟨ha, rfl⟩
    have hy := content_ok_iff.2 ⟨hb, rfl⟩
    refine ⟨.store address (f (view.value a) (view.value b)), ?_⟩
    simp only [Instruction.combination, hx, hy, haddress, Instruction.onCell,
      Int.not_lt.2 hnonneg, if_false]

theorem exists_branching :
    (∃ e, Instruction.branching view.memory view.base taken a b = .ok e) ↔
      view.Readable a ∧ view.Readable b ∧
        (taken (view.value a) = true → 0 ≤ view.value b) := by
  constructor
  · rintro ⟨e, h⟩
    obtain ⟨x, address, hx, hy, hjump⟩ := Instruction.branching_ok h
    obtain ⟨ha, rfl⟩ := content_ok_iff.1 hx
    obtain ⟨hb, rfl⟩ := content_ok_iff.1 hy
    refine ⟨ha, hb, ?_⟩
    intro htaken
    obtain ⟨-, hnonneg, -⟩ | ⟨hpass, -⟩ := hjump
    · exact hnonneg
    · rw [htaken] at hpass
      cases hpass
  · rintro ⟨ha, hb, hgoal⟩
    have hx := content_ok_iff.2 ⟨ha, rfl⟩
    have hy := content_ok_iff.2 ⟨hb, rfl⟩
    simp only [Instruction.branching, hx, hy, Instruction.onCell]
    cases htaken : taken (view.value a) with
    | false => exact ⟨.pass, rfl⟩
    | true => exact ⟨.jump (view.value b), if_neg (Int.not_lt.2 (hgoal htaken))⟩

theorem exists_reception :
    (∃ e, Instruction.reception view.base view.inputs.head? a = .ok e) ↔
      a.mode ≠ .immediate ∧ (view.inputs.pop? = none ∨ view.Writable a) := by
  rw [Queue.pop?_eq, Option.map_eq_none_iff]
  constructor
  · rintro ⟨e, h⟩
    obtain ⟨address, hc, ⟨hhead, -⟩ | ⟨value, -, hnonneg, -⟩⟩ := Instruction.reception_ok h
    · exact ⟨Machine.mode_of_address_ok hc, .inl hhead⟩
    · exact ⟨Machine.mode_of_address_ok hc, .inr (writable_iff.2 ⟨address, hc, hnonneg⟩)⟩
  · rintro ⟨hmode, hqueue⟩
    cases hc : a.address view.base with
    | error fault => exact absurd (Machine.mode_of_address_error hc) hmode
    | ok address =>
      simp only [Instruction.reception, hc]
      cases hhead : view.inputs.head? with
      | none => exact ⟨.wait, rfl⟩
      | some value =>
        obtain hnone | hwritable := hqueue
        · rw [hhead] at hnone
          cases hnone
        · obtain ⟨cell, hcell, hnonneg⟩ := writable_iff.1 hwritable
          rw [hc] at hcell
          cases hcell
          exact ⟨.accept address value, if_neg (Int.not_lt.2 hnonneg)⟩

theorem exists_map_content (effect : Int → Effect) :
    (∃ e, (a.content view.memory view.base).map effect = .ok e) ↔ view.Readable a := by
  constructor
  · rintro ⟨e, h⟩
    obtain ⟨x, hx, -⟩ := Instruction.map_content_ok h
    exact (content_ok_iff.1 hx).1
  · intro h
    rw [content_ok_iff.2 ⟨h, rfl⟩]
    exact ⟨effect (view.value a), rfl⟩

end

theorem admits_iff {view : View} {i : Instruction Int}
    (harity : i.operands.length = i.op.arity) :
    view.Admits i ↔ ∃ e, view.outcome i = .ok e := by
  obtain ⟨op, operands⟩ := i
  cases op with
  | add | mul | less | equal =>
    obtain ⟨a, b, c, rfl⟩ := List.length_eq_three.1 harity
    exact exists_combination.symm
  | jumpTrue =>
    obtain ⟨a, b, rfl⟩ := List.length_eq_two.1 harity
    refine Iff.trans ?_ exists_branching.symm
    simp only [bne_iff_ne]
    exact Iff.rfl
  | jumpFalse =>
    obtain ⟨a, b, rfl⟩ := List.length_eq_two.1 harity
    refine Iff.trans ?_ exists_branching.symm
    simp only [beq_iff_eq]
    exact Iff.rfl
  | input =>
    obtain ⟨a, rfl⟩ := List.length_eq_one_iff.1 harity
    exact exists_reception.symm
  | output | adjustBase =>
    obtain ⟨a, rfl⟩ := List.length_eq_one_iff.1 harity
    exact (exists_map_content _).symm
  | halt =>
    obtain rfl := List.length_eq_zero_iff.1 harity
    exact ⟨fun _ => ⟨.halt, rfl⟩, fun _ => trivial⟩

end View

theorem Instruction.standing_eq_ok {memory : Int → Int} {address : Int} (h : 0 ≤ address)
    {i : Instruction Int} :
    standing memory address = .ok i ↔
      ∃ op modes, decode (memory address) (some address) = .ok (op, modes) ∧
        i = ⟨op, Operand.listed memory modes (address + 1)⟩ := by
  simp only [standing, look, Int.not_lt.2 h, if_false]
  cases decode (memory address) (some address) with
  | error fault => simp
  | ok pair => simp [Prod.ext_iff, eq_comm]

namespace Machine

end Machine

end TapeMachine
