import TapeMachine.Journal

namespace TapeMachine.Machine

def fetchEvents (machine : Machine) : List Event :=
  if machine.status = .terminated then []
  else
    match Instruction.read machine.pointer machine.tape with
    | .error _ _ => []
    | .ok instruction _ => [.executed machine.pointer instruction]

def outcomeEvents (status : Status) (pointer : Int) (outcome : EStateM.Result Fault Machine Unit) :
    List Event :=
  match outcome with
  | .error _ _ => []
  | .ok () after =>
    if after.status = .terminated ∧ status ≠ .terminated then [.halted after.steps]
    else if after.status = .awaitingInput ∧ status ≠ .awaitingInput then [.suspended pointer]
    else []

def stepEvents (machine : Machine) : List Event :=
  fetchEvents machine ++ outcomeEvents machine.status machine.pointer (step machine)

def feedEvents (machine : Machine) (value : Int) : List Event :=
  if machine.status = .awaitingInput then [.resumed machine.pointer value] else []

def feedAllEvents (machine : Machine) : List Int → List Event
  | [] => []
  | value :: values => feedEvents machine value ++ feedAllEvents (machine.feed value) values

def restEvent (machine : Machine) : Event :=
  .rested machine.pointer machine.base machine.status machine.inputs.size machine.outputs.size

def advanceEvents : (n : Nat) → Machine → (journal : Array Event) → Array Event
  | 0, machine, journal => journal.push (restEvent machine)
  | n + 1, machine, journal =>
    if machine.status = .running then
      let pointer := machine.pointer
      let journal := journal ++ fetchEvents machine
      match step machine with
      | .error _ _ => journal
      | .ok () after =>
        advanceEvents n after (journal ++ outcomeEvents .running pointer (.ok () after))
    else
      journal.push (restEvent machine)

def runEvents (allowance : Allowance) (machine : Machine) : List Event :=
  (advanceEvents allowance.steps machine #[]).toList

def executeEvents (program inputs : List Int) (allowance : Allowance)
    (patches : List (Int × Int)) : List Event :=
  match loadPatched program inputs patches with
  | .error _ => []
  | .ok machine => runEvents allowance machine

end TapeMachine.Machine
