import TapeMachine.Command.Report
import TapeMachine.Journal.Ring

namespace TapeMachine.Command

structure RingRequest : Type where
  verbose : Bool
  phases : List Int
  seed : Int
  topology : Ring.Topology
  search : Bool
  program : Path
  deriving DecidableEq

namespace RingRequest

def switches : List Switch :=
  [⟨"phases", none, "--phases", true⟩,
   ⟨"seed", none, "--seed", true⟩,
   ⟨"feedback", none, "--feedback", false⟩,
   ⟨"linear", none, "--linear", false⟩,
   ⟨"search", none, "--search", false⟩]

def phaseList? (text : String) : Option (List Int) :=
  (text.splitOn ",").mapM Text.Numeral.read?

/-- The one asked for last; a ring is closed unless the arguments say otherwise. -/
def topologyOf (given : Arguments) : Ring.Topology :=
  let asked := given.options.filter fun (key, _) => key == "feedback" || key == "linear"
  match asked.getLast? with
  | some ("linear", _) => .linear
  | _ => .circular

def ofArguments (arguments : List String) : Except Refusal RingRequest := do
  let given ← readArguments switches arguments
  let phases ← orUsage ((given.value? "phases").bind phaseList?)
  let seed ← integer given "seed"
  let program ← onlyPath given
  return ⟨given.has "verbose", phases, seed.getD 0, topologyOf given, given.has "search", program⟩

def settingText : Option Ring.Setting → String
  | none => s!"{signalText none} "
  | some setting => s!"{setting.signal} {ProgramText.write setting.phases}"

def result (request : RingRequest) (program : List Int) : Except RingError String :=
  if request.search then
    (Ring.bestSetting request.topology fuel program request.phases request.seed).map settingText
  else
    (Ring.produce request.topology fuel program request.phases request.seed).map fun signal =>
      signal.elim "" toString

def events (request : RingRequest) (program : List Int) : List Event :=
  if request.search then
    Ring.bestEvents request.topology fuel program request.phases request.seed
  else
    Ring.produceEvents request.topology fuel program request.phases request.seed

def report (request : RingRequest) (source : Except FileError String) : Report :=
  let opening : List Event := [.remark "INTCODE RING", .loading request.program.text]
  match loadProgram source with
  | .error failure => .failed opening failure
  | .ok program =>
    let log := opening ++ request.events program
    match request.result program with
    | .error error => .ended 1 "" (log ++ [.remark s!"Ring halted on error {error.message}"])
    | .ok line => .ended 0 (line ++ "\n") log

end RingRequest

end TapeMachine.Command
