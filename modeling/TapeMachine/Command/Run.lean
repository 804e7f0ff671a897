import TapeMachine.Command.Interactive

namespace TapeMachine.Command

structure RunRequest : Type where
  verbose : Bool
  inputs : List Int
  interactive : Bool
  limit : Option Int
  program : Path
  deriving DecidableEq

namespace RunRequest

def switches : List Switch :=
  [⟨"input", some 'i', "--input", true⟩,
   ⟨"interactive", none, "--interactive", false⟩,
   ⟨"limit", none, "--max-steps", true⟩]

def ofArguments (arguments : List String) : Except Refusal RunRequest := do
  let given ← readArguments switches arguments
  let inputs ← orUsage ((given.values "input").mapM Text.Numeral.read?)
  let limit ← integer given "limit"
  let program ← onlyPath given
  return ⟨given.has "verbose", inputs, given.has "interactive", limit, program⟩

def allowance (request : RunRequest) : Allowance :=
  match request.limit with
  | some limit => .limit limit
  | none => .fuel fuel

end RunRequest

namespace Ending

def exit : Ending → Nat
  | .finished => 0
  | .interrupted (.inputMissing _) => 2
  | .abandoned => 3
  | .interrupted (.limitReached _) => 4
  | .interrupted (.fault _) | .interrupted .outOfFuel => 100

def remark : Ending → String
  | .finished => "Execution halted gracefully"
  | .abandoned => "Execution halted by the user"
  | .interrupted interruption =>
    match interruption with
    | .inputMissing _ => s!"Execution suspended: {interruption.message}"
    | .limitReached _ => s!"Execution aborted: {interruption.message}"
    | .fault _ | .outOfFuel => s!"Execution halted on error {interruption.message}"

end Ending

def batch (allowance : Allowance) (program inputs : List Int) : Transcript :=
  let log := Machine.executeEvents program inputs allowance []
  match Machine.execute program inputs allowance [] with
  | .ok outputs => ⟨showValues outputs, log, .finished⟩
  | .error interruption => ⟨"", log, .interrupted interruption⟩

namespace RunRequest

def banner : Event := .remark "INTCODE VM"

def opening (request : RunRequest) : List Event := [banner, .loading request.program.text]

def ending (request : RunRequest) (transcript : Transcript) : Report :=
  .ended transcript.ending.exit transcript.output
    (request.opening ++ transcript.log ++ [.remark transcript.ending.remark])

def unloadable (request : RunRequest) (failure : Failure) : Report :=
  .ended 100 "" (request.opening ++
    [.remark s!"Execution halted on general error {failure.message}"])

def report (request : RunRequest) (source : Except FileError String) (lines : List String) :
    Report :=
  match loadProgram source with
  | .error failure => request.unloadable failure
  | .ok program =>
    request.ending <|
      if request.interactive then
        interact request.allowance (Machine.load program request.inputs) lines
      else
        batch request.allowance program request.inputs

end RunRequest

end TapeMachine.Command
