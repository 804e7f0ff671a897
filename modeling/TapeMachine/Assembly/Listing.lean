import TapeMachine.Assembly.Draft

namespace TapeMachine.Assembly

/-- The instruction that starts a program, if the assembler could have issued its words. -/
def instruction? : List Int → Option (Instruction Int)
  | [] => none
  | word :: words =>
    match Instruction.decode word none with
    | .error _ => none
    | .ok (op, modes) =>
      let instruction : Instruction Int := ⟨op, List.zipWith Operand.mk modes words⟩
      if instruction.operands.length = op.arity ∧ Instruction.encode op modes = word ∧
          !instruction.storesImmediate then
        some instruction
      else
        none

def literalInstruction (instruction : Instruction Int) : Instruction Term :=
  ⟨instruction.op, instruction.operands.map fun operand => ⟨operand.mode, .literal operand.value⟩⟩

def instructionText (i : Instruction Int) : String :=
  (Statement.instruction (literalInstruction i)).text

def rendering? (words : List Int) (address : Nat) : Option String :=
  (instruction? (words.drop address)).map instructionText

def width (word : Int) : Nat :=
  match Opcode.ofWord word none with
  | .error _ => 1
  | .ok op => 1 + op.arity

theorem width_pos (word : Int) : 0 < width word := by
  rw [width]
  split <;> omega

structure Line : Type where
  address : Nat
  code : String
  deriving DecidableEq

def listing (words : List Int) (address : Nat) : List Line :=
  if h : address < words.length then
    match rendering? words address with
    | none =>
      ⟨address, (Statement.data [.literal words[address]]).text⟩ :: listing words (address + 1)
    | some text => ⟨address, text⟩ :: listing words (address + width words[address])
  else []
termination_by words.length - address
decreasing_by
  · omega
  · have := width_pos words[address]
    omega

def padTo (width : Nat) (text : String) : String :=
  text ++ .ofList (List.replicate (width - text.length) ' ')

def Line.text (line : Line) : String :=
  s!"{padTo 32 line.code}// {line.address}"

def disassemble (words : List Int) : List String :=
  (listing words 0).map Line.text

end TapeMachine.Assembly
