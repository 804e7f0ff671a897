import TapeMachine.Machine

/-!
Runs: a machine takes steps until it waits, terminates or faults. A run is given an allowance of
steps, either a limit that the host sets and hears about, or fuel, which only makes the run a total
function: with enough fuel the outcome does not depend on it.
-/

namespace TapeMachine

inductive Allowance : Type
  | limit (steps : Int)
  | fuel (steps : Nat)
  deriving DecidableEq

inductive Interruption : Type
  | fault (fault : Fault)
  | limitReached (limit : Int)
  | inputMissing (pointer : Int)
  | outOfFuel
  deriving DecidableEq

def Interruption.message : Interruption → String
  | .fault cause => cause.message
  | .limitReached limit => s!"Step budget of {limit} exhausted"
  | .inputMissing pointer => s!"Program is waiting for input at {pointer}"
  | .outOfFuel => "Out of fuel"

namespace Allowance

def steps : Allowance → Nat
  | .limit steps => steps.toNat
  | .fuel steps => steps

def exceeded : Allowance → Interruption
  | .limit steps => .limitReached steps
  | .fuel _ => .outOfFuel

end Allowance

namespace Machine

def advance : (n : Nat) → Action Unit
  | 0, machine => .ok () machine
  | n + 1, machine =>
    if machine.status = .running then
      match step machine with
      | .ok () machine => advance n machine
      | .error fault machine => .error fault machine
    else
      .ok () machine

def run (allowance : Allowance) : EStateM Interruption Machine Unit := fun machine =>
  match advance allowance.steps machine with
  | .error fault machine => .error (.fault fault) machine
  | .ok () machine =>
    if machine.status = .running then .error allowance.exceeded machine else .ok () machine

def results (allowance : Allowance) (machine : Machine) : Except Interruption (List Int) :=
  match run allowance machine with
  | .error interruption _ => .error interruption
  | .ok () machine =>
    if machine.status = .awaitingInput then .error (.inputMissing machine.pointer)
    else .ok machine.outputs.toList

def execute (program inputs : List Int) (allowance : Allowance) (patches : List (Int × Int)) :
    Except Interruption (List Int) :=
  match loadPatched program inputs patches with
  | .error fault => .error (.fault fault)
  | .ok machine => results allowance machine

end Machine

end TapeMachine
