namespace TapeMachine

inductive Opcode : Type
  | add
  | mul
  | input
  | output
  | jumpTrue
  | jumpFalse
  | less
  | equal
  | adjustBase
  | halt
  deriving DecidableEq

namespace Opcode

def all : List Opcode :=
  [add, mul, input, output, jumpTrue, jumpFalse, less, equal, adjustBase, halt]

def number : Opcode → Int
  | add => 1
  | mul => 2
  | input => 3
  | output => 4
  | jumpTrue => 5
  | jumpFalse => 6
  | less => 7
  | equal => 8
  | adjustBase => 9
  | halt => 99

def arity : Opcode → Nat
  | add | mul | less | equal => 3
  | jumpTrue | jumpFalse => 2
  | input | output | adjustBase => 1
  | halt => 0

def destination? : Opcode → Option Nat
  | add | mul | less | equal => some 2
  | input => some 0
  | output | jumpTrue | jumpFalse | adjustBase | halt => none

def mnemonic : Opcode → String
  | add => "add"
  | mul => "mul"
  | input => "in"
  | output => "out"
  | jumpTrue => "jt"
  | jumpFalse => "jf"
  | less => "lt"
  | equal => "eq"
  | adjustBase => "arb"
  | halt => "hlt"

def name : Opcode → String
  | add => "ADD"
  | mul => "MUL"
  | input => "IN"
  | output => "OUT"
  | jumpTrue => "JT"
  | jumpFalse => "JF"
  | less => "LT"
  | equal => "EQ"
  | adjustBase => "ARB"
  | halt => "HLT"

def ofNumber? (n : Int) : Option Opcode :=
  all.find? fun op => op.number == n

def ofMnemonic? (s : String) : Option Opcode :=
  all.find? fun op => op.mnemonic == s

def ofName? (s : String) : Option Opcode :=
  all.find? fun op => op.name == s

@[simp] theorem ofNumber?_number (op : Opcode) : ofNumber? op.number = some op := by
  cases op <;> rfl

theorem ofNumber?_eq_some {n : Int} {op : Opcode} : ofNumber? n = some op ↔ op.number = n := by
  constructor
  · intro h
    simpa using List.find?_some h
  · rintro rfl
    exact ofNumber?_number op

theorem number_nonneg (op : Opcode) : 0 ≤ op.number := by
  cases op <;> decide

theorem number_lt (op : Opcode) : op.number < 100 := by
  cases op <;> decide

theorem destination_lt_arity {op : Opcode} {i : Nat} (h : op.destination? = some i) :
    i < op.arity := by
  cases op <;> cases h <;> decide

end Opcode

inductive Mode : Type
  | position
  | immediate
  | relative
  deriving DecidableEq

namespace Mode

def all : List Mode := [position, immediate, relative]

def digit : Mode → Int
  | position => 0
  | immediate => 1
  | relative => 2

def name : Mode → String
  | position => "POSITION"
  | immediate => "IMMEDIATE"
  | relative => "RELATIVE"

def sigil : Mode → String
  | position => ""
  | immediate => "#"
  | relative => "@"

def ofDigit? (n : Int) : Option Mode :=
  all.find? fun m => m.digit == n

@[simp] theorem ofDigit?_digit (m : Mode) : ofDigit? m.digit = some m := by
  cases m <;> rfl

theorem ofDigit?_eq_some {n : Int} {m : Mode} : ofDigit? n = some m ↔ m.digit = n := by
  constructor
  · intro h
    simpa using List.find?_some h
  · rintro rfl
    exact ofDigit?_digit m

theorem digit_nonneg (m : Mode) : 0 ≤ m.digit := by
  cases m <;> decide

theorem digit_lt (m : Mode) : m.digit < 10 := by
  cases m <;> decide

end Mode

inductive UnknownNumber : Type
  | opcode (number : Int)
  | mode (number : Int)
  deriving DecidableEq

def UnknownNumber.message : UnknownNumber → String
  | .opcode n => s!"{n} is not a valid Op"
  | .mode n => s!"{n} is not a valid Mode"

def Opcode.ofNumber (n : Int) : Except UnknownNumber Opcode :=
  match Opcode.ofNumber? n with
  | some op => .ok op
  | none => .error (.opcode n)

def Mode.ofNumber (n : Int) : Except UnknownNumber Mode :=
  match Mode.ofDigit? n with
  | some m => .ok m
  | none => .error (.mode n)

structure Operand (α : Type) : Type where
  mode : Mode
  value : α
  deriving DecidableEq

structure Instruction (α : Type) : Type where
  op : Opcode
  operands : List (Operand α)
  deriving DecidableEq

namespace Instruction

variable {α β : Type}

def lacksDestination (i : Instruction α) : Bool :=
  match i.op.destination? with
  | none => false
  | some n => i.operands.length ≤ n

def storesImmediate (i : Instruction α) : Bool :=
  match i.op.destination? with
  | none => false
  | some n => i.operands[n]?.any fun operand => operand.mode = .immediate

def modes (i : Instruction α) : List Mode := i.operands.map Operand.mode

def values (i : Instruction α) : List α := i.operands.map Operand.value

theorem length_modes (i : Instruction α) : i.modes.length = i.operands.length := List.length_map _

theorem length_values (i : Instruction α) : i.values.length = i.operands.length := List.length_map _

end Instruction

end TapeMachine
