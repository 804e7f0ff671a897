import TapeMachine.Journal.Machine
import TapeMachine.Ring.Search

namespace TapeMachine

def Machine.turnEvents (fuel index : Nat) (signal : Option Int) (machine : Machine) : List Event :=
  if machine.status = .terminated then []
  else
    match signal with
    | none => runEvents (.fuel fuel) machine
    | some value =>
      .routed value index ::
        (feedEvents machine value ++ runEvents (.fuel fuel) (machine.feed value))

namespace Ring

def passEvents (fuel : Nat) : (index : Nat) → Option Int → List Machine → List Event
  | _, _, [] => []
  | index, signal, machine :: machines =>
    machine.turnEvents fuel index signal ++
      match machine.turn fuel signal with
      | .error _ _ => []
      | .ok handover _ => passEvents fuel (index + 1) handover.signal machines

def roundEvents (fuel : Nat) (signal : Option Int) (ring : Ring) : List Event :=
  passEvents fuel 0 signal ring.machines

def pipelineEvents (fuel : Nat) (seed : Int) (ring : Ring) : List Event :=
  roundEvents fuel (some seed) ring ++
    match pipeline fuel seed ring with
    | .error _ _ => []
    | .ok signal _ => [.pipelineEnded ring.machines.length signal]

def circulateEvents (fuel : Nat) : (left : Nat) → Feedback → Option Int → Ring → List Event
  | 0, _, _, _ => []
  | left + 1, soFar, signal, ring =>
    if ring.finished then
      [.feedbackEnded ring.machines.length soFar.signal soFar.rounds]
    else
      roundEvents fuel signal ring ++
        match round fuel signal ring with
        | .error _ _ => []
        | .ok handover ring =>
          if handover.progressed then
            circulateEvents fuel left (soFar.next handover) handover.signal ring
          else []

def feedbackEvents (fuel : Nat) (seed : Int) (ring : Ring) : List Event :=
  circulateEvents fuel fuel ⟨none, 0⟩ (some seed) ring

def produceEvents (topology : Topology) (fuel : Nat) (program phases : List Int) (seed : Int) :
    List Event :=
  match ofPhases program phases with
  | .error _ => []
  | .ok ring =>
    match topology with
    | .linear => pipelineEvents fuel seed ring
    | .circular => feedbackEvents fuel seed ring

def bestEvents (topology : Topology) (fuel : Nat) (program phases : List Int) (seed : Int) :
    List Event :=
  let report (log : Array Event) (phases : List Int) : Except (Array Event) (Array Event) :=
    match produce topology fuel program phases seed with
    | .error _ => .error (log ++ produceEvents topology fuel program phases seed)
    | .ok _ => .ok (log ++ produceEvents topology fuel program phases seed)
  match foldOrderings report #[] phases with
  | .error log | .ok log => log.toList

end Ring

end TapeMachine
