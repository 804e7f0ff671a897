import TapeMachine.Machine
import TapeMachine.Proofs.Growth

/-!
What one step does, told without a computation: the instruction at the pointer and its effect depend
only on the endless tape, the base and the first input in the queue. `step_eq` says that a step
looks at cells, which makes the tape grow, and then either faults or carries out the effect as a
whole.
-/

namespace TapeMachine

inductive Effect : Type
  | store (address value : Int)
  | accept (address value : Int)
  | wait
  | emit (value : Int)
  | jump (address : Int)
  | pass
  | adjust (value : Int)
  | halt
  deriving DecidableEq

def Effect.ofInput : Effect → Bool
  | accept .. | wait => true
  | store .. | emit _ | jump _ | pass | adjust _ | halt => false

namespace Queue

def head? (queue : Queue) : Option Int := queue.toList.head?

def rest (queue : Queue) : Queue := ofList queue.toList.tail

theorem pop?_eq (queue : Queue) :
    queue.pop? = queue.head?.map fun value => (value, queue.rest) := by
  rw [← ofList_toList queue]
  cases queue.toList <;> simp [head?, rest]

theorem head?_eq_none {queue : Queue} : queue.head? = none ↔ queue = .empty :=
  List.head?_eq_none_iff.trans (toList_inj (b := .empty))

end Queue

namespace Operand

def cell? (operand : Operand Int) (base : Int) : Option Int :=
  match operand.mode with
  | .position => some operand.value
  | .relative => some (base + operand.value)
  | .immediate => none

def content (memory : Int → Int) (base : Int) (operand : Operand Int) : Except Fault Int :=
  match operand.cell? base with
  | some address => look memory address
  | none => .ok operand.value

def reach (base : Int) (operand : Operand Int) : Nat := (operand.cell? base).elim 0 Tape.reach

def reachAll (base : Int) : List (Operand Int) → Nat
  | [] => 0
  | operand :: operands =>
    match operand.cell? base with
    | none => reachAll base operands
    | some address => if address < 0 then 0 else max (Tape.reach address) (reachAll base operands)

@[simp] theorem reachAll_nil (base : Int) : reachAll base [] = 0 := rfl

theorem content_cases (memory : Int → Int) (base : Int) (operand : Operand Int) :
    (∃ value, operand.content memory base = .ok value ∧
      ∀ operands, reachAll base (operand :: operands) =
        max (operand.reach base) (reachAll base operands)) ∨
    (∃ fault, operand.content memory base = .error fault ∧ operand.reach base = 0 ∧
      ∀ operands, reachAll base (operand :: operands) = 0) := by
  simp only [content, reach, reachAll]
  cases operand.cell? base with
  | none => exact .inl ⟨operand.value, rfl, fun _ => (Nat.zero_max _).symm⟩
  | some address =>
    by_cases h : address < 0
    · exact .inr ⟨.negativeAddress address, by simp [look, h], by simp [h], by simp [h]⟩
    · exact .inl ⟨memory address, by simp [look, h], by simp [h]⟩

def listed (memory : Int → Int) : List Mode → (address : Int) → List (Operand Int)
  | [], _ => []
  | mode :: modes, address => ⟨mode, memory address⟩ :: listed memory modes (address + 1)

@[simp] theorem length_listed (memory : Int → Int) (modes : List Mode) (address : Int) :
    (listed memory modes address).length = modes.length := by
  induction modes generalizing address with
  | nil => rfl
  | cons mode modes ih => simp [listed, ih]

theorem load_eq (operand : Operand Int) (base : Int) (tape : Tape) :
    operand.load base tape =
      ending (operand.content tape.get base) (tape.extend (operand.reach base)) := by
  obtain ⟨mode, value⟩ := operand
  cases mode with
  | position => exact Tape.read_eq_look value tape
  | relative => exact Tape.read_eq_look (base + value) tape
  | immediate => simp only [content, reach, cell?, Option.elim_none, Tape.extend_zero]; rfl

theorem address_eq (operand : Operand Int) (base : Int) :
    operand.address base =
      match operand.cell? base with
      | some address => .ok address
      | none => .error (.immediateTarget operand.value) := by
  obtain ⟨mode, value⟩ := operand
  cases mode <;> rfl

theorem readAll_eq (modes : List Mode) {address : Int} (h : 0 ≤ address) {tape : Tape}
    (hheld : address.toNat ≤ tape.size) :
    readAll modes address tape =
      .ok (listed tape.get modes address) (tape.extend (address.toNat + modes.length)) := by
  induction modes generalizing address tape with
  | nil =>
    rw [List.length_nil, Nat.add_zero, Tape.extend_of_le hheld]
    rfl
  | cons mode modes ih =>
    have hnext : (address + 1).toNat = address.toNat + 1 := by omega
    have hheld' : (address + 1).toNat ≤ (tape.extend (address.toNat + 1)).size := by
      rw [Tape.size_extend, hnext]
      exact Nat.le_max_right _ _
    simp only [readAll, bind_eq, Tape.read_of_nonneg h, ih (by omega) hheld', Tape.extend_extend,
      Tape.get_extend_eq]
    change EStateM.Result.ok _ _ = EStateM.Result.ok _ _
    simp only [listed, List.length_cons, hnext]
    congr 2
    omega

end Operand

namespace Instruction

def standing (memory : Int → Int) (address : Int) : Except Fault (Instruction Int) :=
  match look memory address with
  | .error fault => .error fault
  | .ok word =>
    match decode word (some address) with
    | .error fault => .error fault
    | .ok (op, modes) => .ok ⟨op, Operand.listed memory modes (address + 1)⟩

def span (memory : Int → Int) (address : Int) : Nat :=
  match standing memory address with
  | .error _ => Tape.reach address
  | .ok instruction => Tape.reach address + instruction.operands.length

theorem read_eq_standing (address : Int) (tape : Tape) :
    read address tape =
      ending (standing tape.get address) (tape.extend (span tape.get address)) := by
  simp only [read, bind_eq, ofExcept_eq, Tape.read_eq_look]
  by_cases h : address < 0
  · simp only [look, h, if_true, ending, standing, span]
  · have hle := Int.not_lt.1 h
    have hreach : (address + 1).toNat = Tape.reach address := rfl
    have hheld : (address + 1).toNat ≤ (tape.extend (Tape.reach address)).size := by
      rw [Tape.size_extend, hreach]
      exact Nat.le_max_right _ _
    simp only [look, h, if_false, ending, standing, span]
    cases hword : decode (tape.get address) (some address) with
    | error fault => rfl
    | ok pair =>
      obtain ⟨op, modes⟩ := pair
      simp only [Operand.readAll_eq modes (by omega) hheld]
      simp only [Tape.extend_extend, Tape.get_extend_eq, Operand.length_listed, hreach,
        Nat.le_add_right, Nat.max_eq_right]
      rfl

theorem length_of_standing {memory : Int → Int} {address : Int} {i : Instruction Int}
    (h : standing memory address = .ok i) : i.operands.length = i.op.arity := by
  simp only [standing] at h
  split at h
  · cases h
  · split at h
    · cases h
    · next hword =>
      cases h
      exact (Operand.length_listed ..).trans (length_of_decode hword)

section

variable (memory : Int → Int) (base : Int)

def onCell (address : Int) (effect : Effect) : Except Fault Effect :=
  if address < 0 then .error (.negativeAddress address) else .ok effect

def combination (f : Int → Int → Int) (a b destination : Operand Int) : Except Fault Effect :=
  match a.content memory base with
  | .error fault => .error fault
  | .ok x =>
    match b.content memory base with
    | .error fault => .error fault
    | .ok y =>
      match destination.address base with
      | .error fault => .error fault
      | .ok address => onCell address (.store address (f x y))

def branching (taken : Int → Bool) (condition goal : Operand Int) : Except Fault Effect :=
  match condition.content memory base with
  | .error fault => .error fault
  | .ok x =>
    match goal.content memory base with
    | .error fault => .error fault
    | .ok address => if taken x then onCell address (.jump address) else .ok .pass

def reception (next? : Option Int) (destination : Operand Int) : Except Fault Effect :=
  match destination.address base with
  | .error fault => .error fault
  | .ok address =>
    match next? with
    | none => .ok .wait
    | some value => onCell address (.accept address value)

/-- What an instruction comes to; `next?` is the first input in the queue. -/
def effect (next? : Option Int) : Instruction Int → Except Fault Effect
  | ⟨.add, [a, b, c]⟩ => combination memory base (· + ·) a b c
  | ⟨.mul, [a, b, c]⟩ => combination memory base (· * ·) a b c
  | ⟨.less, [a, b, c]⟩ => combination memory base (fun x y => if x < y then 1 else 0) a b c
  | ⟨.equal, [a, b, c]⟩ => combination memory base (fun x y => if x = y then 1 else 0) a b c
  | ⟨.jumpTrue, [a, b]⟩ => branching memory base (· != 0) a b
  | ⟨.jumpFalse, [a, b]⟩ => branching memory base (· == 0) a b
  | ⟨.input, [a]⟩ => reception base next? a
  | ⟨.output, [a]⟩ => (a.content memory base).map .emit
  | ⟨.adjustBase, [a]⟩ => (a.content memory base).map .adjust
  | ⟨.halt, []⟩ => .ok .halt
  | _ => .ok .pass

def reach (next? : Option Int) : Instruction Int → Nat
  | ⟨.input, operands⟩ => if next?.isSome then Operand.reachAll base operands else 0
  | ⟨_, operands⟩ => Operand.reachAll base operands

end

def leftover (queue : Queue) : Instruction Int → Queue
  | ⟨.input, [destination]⟩ => if destination.mode = .immediate then queue else queue.rest
  | _ => queue

theorem onCell_ok {address : Int} {effect e : Effect} (h : onCell address effect = .ok e) :
    0 ≤ address ∧ e = effect := by
  simp only [onCell] at h
  split at h
  · cases h
  · next hneg =>
    cases h
    exact ⟨Int.not_lt.1 hneg, rfl⟩

theorem combination_ok {memory : Int → Int} {base : Int} {f : Int → Int → Int}
    {a b destination : Operand Int} {e : Effect}
    (h : combination memory base f a b destination = .ok e) :
    ∃ x y address, a.content memory base = .ok x ∧ b.content memory base = .ok y ∧
      destination.address base = .ok address ∧ 0 ≤ address ∧ e = .store address (f x y) := by
  simp only [combination] at h
  split at h
  · cases h
  · next x hx =>
    split at h
    · cases h
    · next y hy =>
      split at h
      · cases h
      · next address haddress =>
        obtain ⟨hneg, rfl⟩ := onCell_ok h
        exact ⟨x, y, address, hx, hy, haddress, hneg, rfl⟩

theorem branching_ok {memory : Int → Int} {base : Int} {taken : Int → Bool}
    {condition goal : Operand Int} {e : Effect}
    (h : branching memory base taken condition goal = .ok e) :
    ∃ x address, condition.content memory base = .ok x ∧ goal.content memory base = .ok address ∧
      (taken x = true ∧ 0 ≤ address ∧ e = .jump address ∨ taken x = false ∧ e = .pass) := by
  simp only [branching] at h
  split at h
  · cases h
  · next x hx =>
    split at h
    · cases h
    · next address haddress =>
      refine ⟨x, address, hx, haddress, ?_⟩
      split at h
      · next htaken =>
        obtain ⟨hneg, rfl⟩ := onCell_ok h
        exact .inl ⟨htaken, hneg, rfl⟩
      · next htaken =>
        cases h
        exact .inr ⟨Bool.eq_false_iff.2 htaken, rfl⟩

theorem reception_ok {base : Int} {next? : Option Int} {destination : Operand Int} {e : Effect}
    (h : reception base next? destination = .ok e) :
    ∃ address, destination.address base = .ok address ∧
      (next? = none ∧ e = .wait ∨
        ∃ value, next? = some value ∧ 0 ≤ address ∧ e = .accept address value) := by
  simp only [reception] at h
  split at h
  · cases h
  · next address haddress =>
    refine ⟨address, haddress, ?_⟩
    split at h
    · cases h
      exact .inl ⟨rfl, rfl⟩
    · next value =>
      obtain ⟨hneg, rfl⟩ := onCell_ok h
      exact .inr ⟨value, rfl, hneg, rfl⟩

theorem effect_of_ne_input {i : Instruction Int} (h : i.op ≠ .input) (memory : Int → Int)
    (base : Int) (a b : Option Int) : i.effect memory base a = i.effect memory base b := by
  unfold effect
  split
  case h_7 => exact absurd rfl h
  all_goals rfl

theorem reach_eq_reachAll {i : Instruction Int} (h : i.op ≠ .input) (base : Int)
    (next? : Option Int) : i.reach base next? = Operand.reachAll base i.operands := by
  unfold reach
  split
  · exact absurd rfl h
  · rfl

theorem reach_of_ne_input {i : Instruction Int} (h : i.op ≠ .input) (base : Int)
    (a b : Option Int) : i.reach base a = i.reach base b := by
  rw [reach_eq_reachAll h, reach_eq_reachAll h]

theorem map_content_ok {memory : Int → Int} {base : Int} {operand : Operand Int}
    {effect : Int → Effect} {e : Effect}
    (h : (operand.content memory base).map effect = .ok e) :
    ∃ x, operand.content memory base = .ok x ∧ e = effect x := by
  cases hx : operand.content memory base with
  | error fault => simp only [hx, Except.map, reduceCtorEq] at h
  | ok x =>
    rw [hx] at h
    cases h
    exact ⟨x, rfl, rfl⟩

section

variable {i : Instruction Int} {memory : Int → Int} {base : Int} {next? : Option Int} {e : Effect}

theorem effect_cases (h : i.effect memory base next? = .ok e) :
    (∃ f a b c, i.op ≠ .input ∧ i.operands = [a, b, c] ∧
      combination memory base f a b c = .ok e) ∨
    (∃ taken a b, branching memory base taken a b = .ok e) ∨
    (∃ destination, i = ⟨.input, [destination]⟩ ∧ reception base next? destination = .ok e) ∨
    (∃ x, e = .emit x ∨ e = .adjust x) ∨
    i = ⟨.halt, []⟩ ∧ e = .halt ∨
    e = .pass := by
  unfold effect at h
  split at h
  case h_1 a b c | h_2 a b c | h_3 a b c | h_4 a b c =>
    exact .inl ⟨_, a, b, c, by simp, rfl, h⟩
  case h_5 a b | h_6 a b => exact .inr (.inl ⟨_, a, b, h⟩)
  case h_7 destination => exact .inr (.inr (.inl ⟨destination, rfl, h⟩))
  case h_8 a =>
    obtain ⟨x, -, he⟩ := map_content_ok h
    exact .inr (.inr (.inr (.inl ⟨x, .inl he⟩)))
  case h_9 a =>
    obtain ⟨x, -, he⟩ := map_content_ok h
    exact .inr (.inr (.inr (.inl ⟨x, .inr he⟩)))
  case h_10 => exact .inr (.inr (.inr (.inr (.inl ⟨rfl, (Except.ok.inj h).symm⟩))))
  case h_11 => exact .inr (.inr (.inr (.inr (.inr (Except.ok.inj h).symm))))

theorem input_of_effect (h : i.effect memory base next? = .ok e) (he : e.ofInput = true) :
    ∃ destination, i = ⟨.input, [destination]⟩ ∧ reception base next? destination = .ok e := by
  obtain ⟨_, _, _, _, -, -, hcombination⟩ | ⟨_, _, _, hbranching⟩ | hinput |
    ⟨_, rfl | rfl⟩ | ⟨-, rfl⟩ | rfl := effect_cases h
  · obtain ⟨_, _, _, -, -, -, -, rfl⟩ := combination_ok hcombination
    cases he
  · obtain ⟨_, _, -, -, ⟨-, -, rfl⟩ | ⟨-, rfl⟩⟩ := branching_ok hbranching <;> cases he
  · exact hinput
  all_goals cases he

theorem halt_of_effect (h : i.effect memory base next? = .ok .halt) : i = ⟨.halt, []⟩ := by
  obtain ⟨_, _, _, _, -, -, hcombination⟩ | ⟨_, _, _, hbranching⟩ | ⟨_, -, hreception⟩ |
    ⟨_, he | he⟩ | ⟨hi, -⟩ | he := effect_cases h
  · obtain ⟨_, _, _, -, -, -, -, he⟩ := combination_ok hcombination
    cases he
  · obtain ⟨_, _, -, -, ⟨-, -, he⟩ | ⟨-, he⟩⟩ := branching_ok hbranching <;> cases he
  · obtain ⟨_, -, ⟨-, he⟩ | ⟨_, -, -, he⟩⟩ := reception_ok hreception <;> cases he
  · cases he
  · cases he
  · exact hi
  · cases he

theorem nonneg_of_jump {goal : Int} (h : i.effect memory base next? = .ok (.jump goal)) :
    0 ≤ goal := by
  obtain ⟨_, _, _, _, -, -, hcombination⟩ | ⟨_, _, _, hbranching⟩ | ⟨_, -, hreception⟩ |
    ⟨_, he | he⟩ | ⟨-, he⟩ | he := effect_cases h
  · obtain ⟨_, _, _, -, -, -, -, he⟩ := combination_ok hcombination
    cases he
  · obtain ⟨_, _, -, -, ⟨-, hnonneg, he⟩ | ⟨-, he⟩⟩ := branching_ok hbranching
    · cases he
      exact hnonneg
    · cases he
  · obtain ⟨_, -, ⟨-, he⟩ | ⟨_, -, -, he⟩⟩ := reception_ok hreception <;> cases he
  all_goals cases he

end

end Instruction

end TapeMachine
