import TapeMachine.Ring

/-!
The journal: what the machine, the ring, the assembler and the commands report while they work.
Nothing depends on it; its entries are computed beside the work from the same states.
-/

namespace TapeMachine

inductive Level : Type
  | debug
  | info
  deriving DecidableEq

def Level.text : Level → String
  | .debug => "DEBUG"
  | .info => "INFO"

inductive Event : Type
  | executed (pointer : Int) (instruction : Instruction Int)
  | suspended (pointer : Int)
  | resumed (pointer value : Int)
  | halted (steps : Nat)
  | rested (pointer base : Int) (status : Status) (inputs outputs : Nat)
  | routed (signal : Int) (index : Nat)
  | pipelineEnded (machines : Nat) (signal : Option Int)
  | feedbackEnded (machines : Nat) (signal : Option Int) (rounds : Nat)
  | labelled (name : String) (offset : Nat)
  | issued (op : Opcode) (word : Int) (offset : Nat)
  | issuedData (count offset : Nat)
  | assembled (words labels : Nat)
  | listed (words lines : Nat)
  | loading (path : String)
  | processing (path : String)
  | remark (text : String)
  deriving DecidableEq

namespace Event

def level : Event → Level
  | executed .. | suspended _ | resumed .. | rested .. | routed .. | labelled .. | issued ..
  | issuedData .. | listed .. | loading _ => .debug
  | halted _ | pipelineEnded .. | feedbackEnded .. | assembled .. | processing _ | remark _ => .info

end Event

def signalText : Option Int → String
  | none => "None"
  | some signal => toString signal

def operandPair (operand : Operand Int) : String :=
  s!"('{operand.mode.name}', {operand.value})"

def Event.message : Event → String
  | .executed pointer instruction =>
    let operands := ", ".intercalate (instruction.operands.map operandPair)
    s!"{pointer}: {instruction.op.name} [{operands}]"
  | .suspended pointer => s!"Suspended on input at {pointer}"
  | .resumed pointer value => s!"Resumed at {pointer} with input {value}"
  | .halted steps => s!"Execution halted after {steps} steps"
  | .rested pointer base status inputs outputs =>
    s!"IP:{pointer} RB:{base} ST:{status.text} IN:{inputs} OUT:{outputs}"
  | .routed signal index => s!"Routing {signal} into engine {index}"
  | .pipelineEnded machines signal => s!"Pipeline of {machines} produced {signalText signal}"
  | .feedbackEnded machines signal rounds =>
    s!"Feedback ring of {machines} produced {signalText signal} in {rounds} rounds"
  | .labelled name offset => s!"Label {name} @ {offset}"
  | .issued op word offset => s!"Issuing {op.name} as {word} @ {offset}"
  | .issuedData count offset => s!"Issuing {count} data words @ {offset}"
  | .assembled words labels => s!"Assembled {words} words, {labels} labels"
  | .listed words lines => s!"Disassembled {words} words into {lines} lines"
  | .loading path => s!"Loading program {path}"
  | .processing path => s!"Processing {path}"
  | .remark text => text

end TapeMachine
