import TapeMachine.Command

namespace TapeMachine.Command

def ofName? : String → Option Command
  | "icvm" => some .run
  | "icasm" => some .assemble
  | "icdis" => some .list
  | "icamp" => some .amplify
  | _ => none

namespace Terminal

/-- Some failures carry the number of their cause with its sign turned. -/
def fileFault : IO.Error → FileFault
  | .alreadyExists .. => .alreadyThere
  | .inappropriateType _ number _ =>
    if number = 20 ∨ number = 0 - 20 then .notDirectory else .isDirectory
  | .invalidArgument .. => .nameTooLong
  | _ => .missing

def attempt {α : Type} (path : Path) (action : IO α) : IO (Except FileFault α) := do
  if let some fault := path.fault? then
    return .error fault
  match ← action.toBaseIO with
  | .ok a => return .ok a
  | .error error => return .error (fileFault error)

def fetch (path : Path) : IO (Except FileFault String) :=
  attempt path (IO.FS.readFile path.text)

def readSource (path : Path) : IO (Except FileError String) := do
  return (← fetch path).mapError (⟨·, path⟩)

def ensureDirectory (path : Path) : IO (Except FileFault Unit) := do
  match ← attempt path (IO.FS.createDir path.text) with
  | .error fault =>
    match ← fetch path with
    | .error .isDirectory => return .ok ()
    | _ => return .error fault
  | .ok () => return .ok ()

def writeTarget (path : Path) (text : String) : IO (Except FileError Unit) := do
  match ← makeWay ensureDirectory path.above with
  | .error error => return .error error
  | .ok () =>
    let written ← attempt path (IO.FS.writeFile path.text text)
    return written.mapError (⟨·, path⟩)

def say (text : String) : IO Unit := do
  let stdout ← IO.getStdout
  stdout.putStr text
  stdout.flush

def log (verbose : Bool) (events : List Event) : IO Unit := do
  for event in events do
    if verbose || event.level = .info then
      IO.eprintln (logLine event)

partial def ask (verbose : Bool) (allowance : Allowance) (machine : Machine) : IO Ending := do
  say promptText
  let line ← (← IO.getStdin).getLine
  if line.isEmpty then
    return .abandoned
  match Answer.ofLine ((inputLines line).headD "") with
  | .again note =>
    say note
    ask verbose allowance machine
  | .value value =>
    log verbose (machine.feedEvents value ++ (machine.feed value).runEvents allowance)
    let (outputs, pause) := resume allowance (machine.feed value)
    say (showValues outputs)
    match pause with
    | .ended ending => return ending
    | .asking machine => ask verbose allowance machine

def interactive (request : RunRequest) (program : List Int) : IO UInt32 := do
  let machine := Machine.load program request.inputs
  log request.verbose (request.opening ++ machine.runEvents request.allowance)
  let (outputs, pause) := resume request.allowance machine
  say (showValues outputs)
  let ending ← match pause with
    | .ended ending => pure ending
    | .asking machine => ask request.verbose request.allowance machine
  log request.verbose [.remark ending.remark]
  return ending.exit.toUInt32

def perform (verbose : Bool) (report : Report) : IO UInt32 := do
  log verbose report.log
  say report.output
  if let some failure := report.failure then
    IO.eprintln failure.message
  match report.file with
  | none => return report.exit.toUInt32
  | some (path, text) =>
    match ← writeTarget path text with
    | .ok () => return report.exit.toUInt32
    | .error error =>
      IO.eprintln error.message
      return 1

def serve (request : Request) : IO UInt32 := do
  let source ← readSource request.path
  match request, loadProgram source with
  | .run request, .ok program =>
    if request.interactive then interactive request program
    else perform request.verbose (request.report source [])
  | request, _ => perform request.verbose (request.report [] source)

def usage : String := "usage: icvm | icasm | icdis | icamp [options] files"

def refuse (refusal : Refusal) : IO UInt32 := do
  IO.eprintln usage
  return refusal.exit.toUInt32

end Terminal

def start : (arguments : List String) → IO UInt32
  | [] => Terminal.refuse .usage
  | name :: arguments =>
    match ofName? name with
    | none => Terminal.refuse .usage
    | some command =>
      match command.request arguments with
      | .error refusal => Terminal.refuse refusal
      | .ok request => Terminal.serve request

end TapeMachine.Command

def main (arguments : List String) : IO UInt32 :=
  TapeMachine.Command.start arguments
