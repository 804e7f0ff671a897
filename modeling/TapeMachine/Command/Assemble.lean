import TapeMachine.Command.Report
import TapeMachine.Journal.Assembly

namespace TapeMachine.Command

structure AssembleRequest : Type where
  verbose : Bool
  source : Path
  target : Path
  deriving DecidableEq

namespace AssembleRequest

def ofArguments (arguments : List String) : Except Refusal AssembleRequest := do
  let given ← readArguments [] arguments
  match given.operands with
  | [source, target] => return ⟨given.has "verbose", .ofString source, .ofString target⟩
  | _ => throw .usage

def fileText (program : List Int) : String := ProgramText.write program ++ "\n"

def report (request : AssembleRequest) (source : Except FileError String) : Report :=
  let opening : List Event := [.remark "INTCODE ASM", .processing request.source.text]
  match contents source with
  | .error failure => .failed opening failure
  | .ok text =>
    let log := opening ++ Assembly.assembleEvents text
    match Assembly.assemble text with
    | .error error => .failed log (.assembly error)
    | .ok program => ⟨0, "", log, none, some (request.target, fileText program)⟩

end AssembleRequest

structure ListRequest : Type where
  verbose : Bool
  program : Path
  deriving DecidableEq

namespace ListRequest

def ofArguments (arguments : List String) : Except Refusal ListRequest := do
  let given ← readArguments [] arguments
  let program ← onlyPath given
  return ⟨given.has "verbose", program⟩

def report (request : ListRequest) (source : Except FileError String) : Report :=
  let opening : List Event := [.loading request.program.text]
  match loadProgram source with
  | .error failure => .failed opening failure
  | .ok program =>
    .ended 0 (printLines (Assembly.disassemble program))
      (opening ++ Assembly.disassembleEvents program)

end ListRequest

end TapeMachine.Command
