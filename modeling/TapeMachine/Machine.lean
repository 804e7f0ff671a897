import TapeMachine.Instruction.Word
import TapeMachine.Queue
import TapeMachine.Tape

/-!
The machine: a tape that holds program and data alike, an instruction pointer, a base for relative
addresses, and two queues to the host. One step fetches the instruction at the pointer and carries
it out. A step that faults leaves the machine as it was when the fault arose.
-/

namespace TapeMachine

inductive Status : Type
  | running
  | awaitingInput
  | terminated
  deriving DecidableEq

def Status.text : Status → String
  | .running => "running"
  | .awaitingInput => "awaiting-input"
  | .terminated => "terminated"

structure Machine : Type where
  tape : Tape
  pointer : Int
  base : Int
  status : Status
  /-- How many instructions were completed; an input that found no value is not one of them. -/
  steps : Nat
  inputs : Queue
  outputs : Queue
  deriving DecidableEq

namespace Operand

def address (operand : Operand Int) (base : Int) : Except Fault Int :=
  match operand.mode with
  | .position => .ok operand.value
  | .relative => .ok (base + operand.value)
  | .immediate => .error (.immediateTarget operand.value)

def load (operand : Operand Int) (base : Int) : Tape.Access Int :=
  match operand.mode with
  | .position => Tape.read operand.value
  | .relative => Tape.read (base + operand.value)
  | .immediate => pure operand.value

def readAll : List Mode → (address : Int) → Tape.Access (List (Operand Int))
  | [], _ => pure []
  | mode :: modes, address => do
    let value ← Tape.read address
    let operands ← readAll modes (address + 1)
    return ⟨mode, value⟩ :: operands

end Operand

def Instruction.read (address : Int) : Tape.Access (Instruction Int) := do
  let word ← Tape.read address
  let (op, modes) ← MonadExcept.ofExcept (Instruction.decode word (some address))
  let operands ← Operand.readAll modes (address + 1)
  return ⟨op, operands⟩

namespace Machine

abbrev Action : Type → Type := EStateM Fault Machine

def onTape {α : Type} (access : Tape.Access α) : Action α
  | ⟨tape, pointer, base, status, steps, inputs, outputs⟩ =>
    match access tape with
    | .ok a tape => .ok a ⟨tape, pointer, base, status, steps, inputs, outputs⟩
    | .error fault tape => .error fault ⟨tape, pointer, base, status, steps, inputs, outputs⟩

def source (operand : Operand Int) : Action Int := do
  onTape (operand.load (← get).base)

def target (operand : Operand Int) : Action Int := do
  MonadExcept.ofExcept (operand.address (← get).base)

def store (address value : Int) : Action Unit :=
  onTape (Tape.write address value)

def combine (f : Int → Int → Int) (a b destination : Operand Int) : Action Unit := do
  let x ← source a
  let y ← source b
  store (← target destination) (f x y)

def branch (taken : Int → Bool) (condition goal : Operand Int) : Action (Option Int) := do
  let x ← source condition
  let address ← source goal
  if taken x then
    if address < 0 then throw (.negativeAddress address) else return some address
  else
    return none

/-- Stores the next input. Without one the machine waits where it is. A value is taken from the
queue before it is stored, so it is gone if storing it faults. -/
def receive (destination : Operand Int) : Action (Option Int) := do
  let address ← target destination
  match (← get).inputs.pop? with
  | none =>
    modify fun machine => { machine with status := .awaitingInput }
    return some (← get).pointer
  | some (value, rest) =>
    modify fun machine => { machine with inputs := rest }
    store address value
    modify fun machine => { machine with status := .running }
    return none

def emit (operand : Operand Int) : Action Unit := do
  let value ← source operand
  modify fun machine => { machine with outputs := machine.outputs.push value }

def adjust (operand : Operand Int) : Action Unit := do
  let value ← source operand
  modify fun machine => { machine with base := machine.base + value }

/-- Carries out one instruction and tells where the program goes on, if not behind it. An operand
list of the wrong length does nothing. -/
def perform : Instruction Int → Action (Option Int)
  | ⟨.add, [a, b, c]⟩ => do combine (· + ·) a b c; return none
  | ⟨.mul, [a, b, c]⟩ => do combine (· * ·) a b c; return none
  | ⟨.less, [a, b, c]⟩ => do combine (fun x y => if x < y then 1 else 0) a b c; return none
  | ⟨.equal, [a, b, c]⟩ => do combine (fun x y => if x = y then 1 else 0) a b c; return none
  | ⟨.jumpTrue, [a, b]⟩ => branch (· != 0) a b
  | ⟨.jumpFalse, [a, b]⟩ => branch (· == 0) a b
  | ⟨.input, [a]⟩ => receive a
  | ⟨.output, [a]⟩ => do emit a; return none
  | ⟨.adjustBase, [a]⟩ => do adjust a; return none
  | ⟨.halt, []⟩ => do
    modify fun machine => { machine with status := .terminated }
    return some (← get).pointer
  | _ => return none

/-- Moves behind an instruction of `width` cells, or to `next?`, and counts the instruction unless
the machine waits. -/
def complete (machine : Machine) (width : Nat) (next? : Option Int) : Machine :=
  { machine with
    steps := if machine.status = .awaitingInput then machine.steps else machine.steps + 1
    pointer := next?.getD (machine.pointer + width) }

def cycle : Action Unit := do
  let instruction ← onTape (Instruction.read (← get).pointer)
  let next? ← perform instruction
  modify fun machine => machine.complete (instruction.operands.length + 1) next?

def step : Action Unit := fun machine =>
  if machine.status = .terminated then .ok () machine else cycle machine

def load (program inputs : List Int) : Machine where
  tape := .ofList program
  pointer := 0
  base := 0
  status := .running
  steps := 0
  inputs := .ofList inputs
  outputs := .empty

def patch : List (Int × Int) → Action Unit
  | [] => return ()
  | (address, value) :: patches => do
    store address value
    patch patches

def loadPatched (program inputs : List Int) (patches : List (Int × Int)) : Except Fault Machine :=
  match patch patches (load program inputs) with
  | .ok () machine => .ok machine
  | .error fault _ => .error fault

def feed (machine : Machine) (value : Int) : Machine :=
  { machine with
    inputs := machine.inputs.push value
    status := if machine.status = .awaitingInput then .running else machine.status }

def feedAll (machine : Machine) (values : List Int) : Machine :=
  values.foldl feed machine

def takeOutput (machine : Machine) : Option Int × Machine :=
  match machine.outputs.pop? with
  | none => (none, machine)
  | some (value, rest) => (some value, { machine with outputs := rest })

def takeOutputs (machine : Machine) : List Int × Machine :=
  (machine.outputs.toList, { machine with outputs := .empty })

end Machine

end TapeMachine
