namespace TapeMachine

inductive Fault : Type
  | negativeAddress (address : Int)
  | unknownOpcode (word : Int) (location : Option Int)
  | unknownMode (digit : Int) (index : Nat) (word : Int)
  | immediateTarget (value : Int)
  deriving DecidableEq

def Fault.message : Fault → String
  | .negativeAddress address => s!"Negative memory address {address}"
  | .unknownOpcode word none => s!"Invalid opcode in word {word}"
  | .unknownOpcode word (some location) => s!"Invalid opcode in word {word} at {location}"
  | .unknownMode digit index word => s!"Invalid mode {digit} for parameter {index} in word {word}"
  | .immediateTarget value => s!"Immediate operand {value} used as a write target"

end TapeMachine
