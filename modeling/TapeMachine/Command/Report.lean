import TapeMachine.Assembly.Draft
import TapeMachine.Command.Arguments
import TapeMachine.Command.Store
import TapeMachine.Journal
import TapeMachine.ProgramText
import TapeMachine.Text.Numeral

namespace TapeMachine.Command

open Text

inductive Refusal : Type
  | help
  | usage
  deriving DecidableEq

def Refusal.exit : Refusal → Nat
  | .help => 0
  | .usage => 2

def orUsage {α : Type} : Option α → Except Refusal α
  | some a => .ok a
  | none => .error .usage

def helpSwitch : Switch := ⟨"help", none, "--help", false⟩

def verboseSwitch : Switch := ⟨"verbose", some 'v', "--verbose", false⟩

/-- A request for help wins over every fault in a value. -/
def readArguments (switches : List Switch) (arguments : List String) :
    Except Refusal Arguments := do
  let given ← orUsage (Arguments.read? (helpSwitch :: verboseSwitch :: switches) arguments)
  if given.has "help" then throw .help else return given

def onlyPath (arguments : Arguments) : Except Refusal Path :=
  match arguments.operands with
  | [name] => .ok (.ofString name)
  | _ => .error .usage

def integer (arguments : Arguments) (key : String) : Except Refusal (Option Int) :=
  match arguments.value? key with
  | none => .ok none
  | some text => (orUsage (Numeral.read? text)).map some

inductive Failure : Type
  | file (error : FileError)
  | program (error : ProgramText.SyntaxError)
  | assembly (error : Assembly.AssemblyError)
  deriving DecidableEq

def Failure.message : Failure → String
  | .file error => error.message
  | .program error => error.message
  | .assembly error => error.message

structure Report : Type where
  exit : Nat
  output : String
  log : List Event
  failure : Option Failure
  file : Option (Path × String)
  deriving DecidableEq

namespace Report

def refused (refusal : Refusal) : Report := ⟨refusal.exit, "", [], none, none⟩

def failed (log : List Event) (failure : Failure) : Report := ⟨1, "", log, some failure, none⟩

def ended (exit : Nat) (output : String) (log : List Event) : Report :=
  ⟨exit, output, log, none, none⟩

def filtered (verbose : Bool) (report : Report) : Report :=
  { report with log := report.log.filter fun event => verbose || event.level = .info }

end Report

def logLine (event : Event) : String := s!"{event.level.text}:root:{event.message}"

def printLines (lines : List String) : String :=
  String.join (lines.map (· ++ "\n"))

def contents (source : Except FileError String) : Except Failure String :=
  match source with
  | .error error => .error (.file error)
  | .ok text => .ok (.ofList (unifyLineEnds text.toList))

def loadProgram (source : Except FileError String) : Except Failure (List Int) :=
  match contents source with
  | .error failure => .error failure
  | .ok text =>
    match ProgramText.read text with
    | .error error => .error (.program error)
    | .ok program => .ok program

/-- Fuel for runs without a limit, more than can be used up. -/
def fuel : Nat := 1000000000000000

end TapeMachine.Command
