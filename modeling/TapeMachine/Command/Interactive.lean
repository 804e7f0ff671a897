import TapeMachine.Command.Report
import TapeMachine.Journal.Machine

namespace TapeMachine.Command

open Text

inductive Answer : Type
  | value (value : Int)
  | again (note : String)
  deriving DecidableEq

def Answer.ofLine (line : String) : Answer :=
  if line = "" then .again ""
  else
    match Numeral.read? line with
    | some n => .value n
    | none => .again s!"Error: {quoted line} is not a valid integer.\n"

def promptText : String := "input: "

inductive Ending : Type
  | finished
  | interrupted (interruption : Interruption)
  | abandoned
  deriving DecidableEq

inductive Pause : Type
  | ended (ending : Ending)
  | asking (machine : Machine)
  deriving DecidableEq

def resume (allowance : Allowance) (machine : Machine) : List Int × Pause :=
  match Machine.run allowance machine with
  | .error interruption _ => ([], .ended (.interrupted interruption))
  | .ok () machine =>
    match machine.takeOutputs with
    | (outputs, machine) =>
      (outputs, if machine.status = .terminated then .ended .finished else .asking machine)

structure Transcript : Type where
  output : String
  log : List Event
  ending : Ending
  deriving DecidableEq

def Transcript.after (output : String) (log : List Event) (transcript : Transcript) : Transcript :=
  ⟨output ++ transcript.output, log ++ transcript.log, transcript.ending⟩

def showValues (values : List Int) : String := printLines (values.map toString)

/-- The conversation from a prompt on; the lines typed are shown as a terminal would. -/
def converse (allowance : Allowance) (machine : Machine) : (lines : List String) → Transcript
  | [] => ⟨promptText, [], .abandoned⟩
  | line :: lines =>
    let shown := promptText ++ line ++ "\n"
    match Answer.ofLine line with
    | .again note => (converse allowance machine lines).after (shown ++ note) []
    | .value value =>
      let log := machine.feedEvents value ++ (machine.feed value).runEvents allowance
      match resume allowance (machine.feed value) with
      | (outputs, .ended ending) => ⟨shown ++ showValues outputs, log, ending⟩
      | (outputs, .asking machine) =>
        (converse allowance machine lines).after (shown ++ showValues outputs) log

def interact (allowance : Allowance) (machine : Machine) (lines : List String) : Transcript :=
  let log := machine.runEvents allowance
  match resume allowance machine with
  | (outputs, .ended ending) => ⟨showValues outputs, log, ending⟩
  | (outputs, .asking machine) => (converse allowance machine lines).after (showValues outputs) log

def inputLines (text : String) : List String :=
  let lines := (String.ofList (unifyLineEnds text.toList)).splitOn "\n"
  if lines.getLast? = some "" then lines.dropLast else lines

end TapeMachine.Command
