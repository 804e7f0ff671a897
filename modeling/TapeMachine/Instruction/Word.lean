import TapeMachine.Fault
import TapeMachine.Instruction

namespace TapeMachine

namespace Opcode

def ofWord (word : Int) (location : Option Int) : Except Fault Opcode :=
  if word < 0 then .error (.unknownOpcode word location)
  else
    match ofNumber? (word % 100) with
    | some op => .ok op
    | none => .error (.unknownOpcode word location)

end Opcode

namespace Mode

/-- The modes written by the lowest `count` digits of `digits`; the lowest one belongs to the
parameter `index` of `word`. -/
def ofDigits (word : Int) : (count index : Nat) → (digits : Int) → Except Fault (List Mode)
  | 0, _, _ => .ok []
  | count + 1, index, digits =>
    match ofDigit? (digits % 10) with
    | none => .error (.unknownMode (digits % 10) index word)
    | some mode =>
      match ofDigits word count (index + 1) (digits / 10) with
      | .error fault => .error fault
      | .ok modes => .ok (mode :: modes)

def ofWord (word : Int) (count : Nat) : Except Fault (List Mode) :=
  ofDigits word count 0 (word / 100)

def toDigits : List Mode → Int
  | [] => 0
  | mode :: modes => mode.digit + 10 * toDigits modes

end Mode

namespace Instruction

def encode (op : Opcode) (modes : List Mode) : Int :=
  op.number + 100 * Mode.toDigits modes

def decode (word : Int) (location : Option Int) : Except Fault (Opcode × List Mode) :=
  match Opcode.ofWord word location with
  | .error fault => .error fault
  | .ok op =>
    match Mode.ofWord word op.arity with
    | .error fault => .error fault
    | .ok modes => .ok (op, modes)

end Instruction

theorem Mode.toDigits_nonneg (modes : List Mode) : 0 ≤ Mode.toDigits modes := by
  induction modes with
  | nil => exact Int.le_refl 0
  | cons mode modes ih =>
    have h := mode.digit_nonneg
    simp only [Mode.toDigits]
    omega

theorem Mode.length_ofDigits {word : Int} {count index : Nat} {digits : Int} {modes : List Mode}
    (h : Mode.ofDigits word count index digits = .ok modes) : modes.length = count := by
  induction count generalizing index digits modes with
  | zero =>
    simp only [Mode.ofDigits, Except.ok.injEq] at h
    simp [← h]
  | succ count ih =>
    simp only [Mode.ofDigits] at h
    split at h
    · cases h
    · split at h
      · cases h
      · next hrest =>
        simp only [Except.ok.injEq] at h
        simp [← h, ih hrest]

theorem Mode.toDigits_cons_emod (mode : Mode) (modes : List Mode) :
    toDigits (mode :: modes) % 10 = mode.digit := by
  have hnonneg := mode.digit_nonneg
  have hlt := mode.digit_lt
  rw [toDigits]
  omega

theorem Mode.toDigits_cons_ediv (mode : Mode) (modes : List Mode) :
    toDigits (mode :: modes) / 10 = toDigits modes := by
  have hnonneg := mode.digit_nonneg
  have hlt := mode.digit_lt
  rw [toDigits]
  omega

theorem Mode.ofDigits_toDigits (word : Int) (modes : List Mode) (index : Nat) :
    ofDigits word modes.length index (toDigits modes) = .ok modes := by
  induction modes generalizing index with
  | nil => rfl
  | cons mode modes ih =>
    simp only [List.length_cons, ofDigits, toDigits_cons_emod, toDigits_cons_ediv, ofDigit?_digit,
      ih]

namespace Instruction

theorem encode_nonneg (op : Opcode) (modes : List Mode) : 0 ≤ encode op modes := by
  have h := op.number_nonneg
  have h' := Mode.toDigits_nonneg modes
  simp only [encode]
  omega

@[simp] theorem encode_mod (op : Opcode) (modes : List Mode) :
    encode op modes % 100 = op.number := by
  have h := op.number_nonneg
  have h' := op.number_lt
  simp only [encode]
  omega

@[simp] theorem encode_div (op : Opcode) (modes : List Mode) :
    encode op modes / 100 = Mode.toDigits modes := by
  have h := op.number_nonneg
  have h' := op.number_lt
  simp only [encode]
  omega

theorem opcode_encode (op : Opcode) (modes : List Mode) (location : Option Int) :
    Opcode.ofWord (encode op modes) location = .ok op := by
  simp only [Opcode.ofWord, Int.not_lt.2 (encode_nonneg op modes), if_false, encode_mod,
    Opcode.ofNumber?_number]

theorem decode_encode {op : Opcode} {modes : List Mode} (h : modes.length = op.arity)
    (location : Option Int) : decode (encode op modes) location = .ok (op, modes) := by
  have hmodes : Mode.ofWord (encode op modes) op.arity = .ok modes := by
    rw [Mode.ofWord, encode_div, ← h, Mode.ofDigits_toDigits]
  simp only [decode, opcode_encode, hmodes]

theorem length_of_decode {word : Int} {location : Option Int} {op : Opcode} {modes : List Mode}
    (h : decode word location = .ok (op, modes)) : modes.length = op.arity := by
  simp only [decode] at h
  split at h
  · cases h
  · split at h
    · cases h
    · next hmodes =>
      simp only [Except.ok.injEq, Prod.mk.injEq] at h
      obtain ⟨rfl, rfl⟩ := h
      exact Mode.length_ofDigits hmodes

end Instruction

end TapeMachine
