import TapeMachine.Machine.Run

/-!
Rings: machines in a row, each handing its last output to the next one. They take turns in a fixed
order, so a result never depends on timing. In a pipeline the signal passes the row once; with
feedback the last machine's signal goes back to the first one, round after round, until the last
machine has terminated.
-/

namespace TapeMachine

structure Ring : Type where
  machines : List Machine
  deriving DecidableEq

inductive RingError : Type
  | noMachines
  | interrupted (interruption : Interruption)
  | stalled (round : Nat)
  deriving DecidableEq

def RingError.message : RingError → String
  | .noMachines => "A ring needs at least one engine"
  | .interrupted interruption => interruption.message
  | .stalled round => s!"No engine made progress in round {round}"

structure Handover : Type where
  signal : Option Int
  progressed : Bool
  deriving DecidableEq

namespace Machine

def feed? (machine : Machine) : (signal : Option Int) → Machine
  | none => machine
  | some value => machine.feed value

/-- A machine's turn in a round: it takes the signal, runs until it rests and gives up its outputs,
of which only the last one is handed on. A terminated machine hands on nothing. -/
def turn (fuel : Nat) (signal : Option Int) : EStateM Interruption Machine Handover :=
  fun machine =>
    if machine.status = .terminated then .ok ⟨none, false⟩ machine
    else
      match run (.fuel fuel) (machine.feed? signal) with
      | .error interruption machine => .error interruption machine
      | .ok () machine =>
        match machine.takeOutputs with
        | (outputs, machine) =>
          .ok ⟨outputs.getLast?, !outputs.isEmpty || machine.status = .terminated⟩ machine

end Machine

namespace Ring

def phased (program : List Int) (phase : Int) : Machine :=
  (Machine.load program []).feed phase

def ofPhases (program phases : List Int) : Except RingError Ring :=
  match phases with
  | [] => .error .noMachines
  | phases => .ok ⟨phases.map (phased program)⟩

def append (ring : Ring) (program : List Int) (phase : Int) : Ring :=
  ⟨ring.machines ++ [phased program phase]⟩

def finished (ring : Ring) : Bool :=
  ring.machines.getLast?.all fun machine => machine.status = .terminated

/-- One turn for each machine of a row. If one is interrupted, those behind it get no turn. -/
def pass (fuel : Nat) (signal : Option Int) :
    List Machine → EStateM.Result Interruption (List Machine) Handover
  | [] => .ok ⟨signal, false⟩ []
  | machine :: machines =>
    match machine.turn fuel signal with
    | .error interruption machine => .error interruption (machine :: machines)
    | .ok handover machine =>
      match pass fuel handover.signal machines with
      | .error interruption machines => .error interruption (machine :: machines)
      | .ok last machines =>
        .ok ⟨last.signal, handover.progressed || last.progressed⟩ (machine :: machines)

def round (fuel : Nat) (signal : Option Int) : EStateM RingError Ring Handover := fun ring =>
  match pass fuel signal ring.machines with
  | .error interruption machines => .error (.interrupted interruption) ⟨machines⟩
  | .ok handover machines => .ok handover ⟨machines⟩

def pipeline (fuel : Nat) (seed : Int) : EStateM RingError Ring (Option Int) := fun ring =>
  match round fuel (some seed) ring with
  | .error error ring => .error error ring
  | .ok handover ring => .ok handover.signal ring

structure Feedback : Type where
  signal : Option Int
  rounds : Nat
  deriving DecidableEq

def Feedback.next (soFar : Feedback) (handover : Handover) : Feedback :=
  ⟨handover.signal <|> soFar.signal, soFar.rounds + 1⟩

def circulate (fuel : Nat) : (left : Nat) → (soFar : Feedback) → (signal : Option Int) →
    EStateM RingError Ring Feedback
  | left, soFar, signal, ring =>
    if ring.finished then .ok soFar ring
    else
      match left with
      | 0 => .error (.interrupted .outOfFuel) ring
      | left + 1 =>
        match round fuel signal ring with
        | .error error ring => .error error ring
        | .ok handover ring =>
          if handover.progressed then
            circulate fuel left (soFar.next handover) handover.signal ring
          else
            .error (.stalled (soFar.next handover).rounds) ring

def feedback (fuel : Nat) (seed : Int) : EStateM RingError Ring Feedback :=
  circulate fuel fuel ⟨none, 0⟩ (some seed)

inductive Topology : Type
  | linear
  | circular
  deriving DecidableEq

def produce (topology : Topology) (fuel : Nat) (program phases : List Int) (seed : Int) :
    Except RingError (Option Int) :=
  match ofPhases program phases with
  | .error error => .error error
  | .ok ring =>
    match topology with
    | .linear =>
      match pipeline fuel seed ring with
      | .ok signal _ => .ok signal
      | .error error _ => .error error
    | .circular =>
      match feedback fuel seed ring with
      | .ok result _ => .ok result.signal
      | .error error _ => .error error

end Ring

end TapeMachine
