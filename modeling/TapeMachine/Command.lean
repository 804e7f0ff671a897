import TapeMachine.Command.Amplify
import TapeMachine.Command.Assemble
import TapeMachine.Command.Run

namespace TapeMachine

inductive Command : Type
  | run
  | assemble
  | list
  | amplify
  deriving DecidableEq

namespace Command

inductive Request : Type
  | run (request : RunRequest)
  | assemble (request : AssembleRequest)
  | list (request : ListRequest)
  | amplify (request : RingRequest)
  deriving DecidableEq

def request : Command → (arguments : List String) → Except Refusal Request
  | .run, arguments => (RunRequest.ofArguments arguments).map .run
  | .assemble, arguments => (AssembleRequest.ofArguments arguments).map .assemble
  | .list, arguments => (ListRequest.ofArguments arguments).map .list
  | .amplify, arguments => (RingRequest.ofArguments arguments).map .amplify

namespace Request

def verbose : Request → Bool
  | run request => request.verbose
  | assemble request => request.verbose
  | list request => request.verbose
  | amplify request => request.verbose

def path : Request → Path
  | run request => request.program
  | assemble request => request.source
  | list request => request.program
  | amplify request => request.program

def report (lines : List String) (source : Except FileError String) : Request → Report
  | run request => request.report source lines
  | assemble request => request.report source
  | list request => request.report source
  | amplify request => request.report source

end Request

def settle (store : Store) (report : Report) : Report × Store :=
  match report.file with
  | none => (report, store)
  | some (path, text) =>
    match Store.write path text store with
    | (.ok (), store) => (report, store)
    | (.error error, store) => (.failed report.log (.file error), store)

def onStore (command : Command) (arguments : List String) (store : Store) (input : String) :
    Report × Store :=
  match command.request arguments with
  | .error refusal => (.refused refusal, store)
  | .ok request =>
    let report := request.report (inputLines input) (store.read request.path)
    settle store (report.filtered request.verbose)

end Command

end TapeMachine
