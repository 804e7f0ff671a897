import TapeMachine.Main
import TapeMachine.Proofs.Computation
import TapeMachine.Proofs.Growth
import TapeMachine.Proofs.Machine.Effect
import TapeMachine.Proofs.Machine.Step
import TapeMachine.Proofs.Machine.Atomicity
import TapeMachine.Proofs.Machine.Settling
import TapeMachine.Proofs.Machine.Suspension
import TapeMachine.Proofs.Machine.Conservation
import TapeMachine.Proofs.Machine.View
import TapeMachine.Proofs.Machine.Table
import TapeMachine.Proofs.Machine.Size
import TapeMachine.Proofs.Machine.Output
import TapeMachine.Proofs.Machine.Replay
import TapeMachine.Proofs.Machine.Status
import TapeMachine.Proofs.Machine.Budget
import TapeMachine.Proofs.Machine.Outcome
import TapeMachine.Proofs.Machine.Delivery
import TapeMachine.Proofs.Machine.Resumption
import TapeMachine.Proofs.Machine.Counting
import TapeMachine.Proofs.Instruction.Decoding
import TapeMachine.Proofs.Instruction.Encoding
import TapeMachine.Proofs.Ring.Round
import TapeMachine.Proofs.Ring.Stall
import TapeMachine.Proofs.Ring.Emission
import TapeMachine.Proofs.Ring.Network
import TapeMachine.Proofs.Ring.Asynchrony
import TapeMachine.Proofs.Ring.Routing
import TapeMachine.Proofs.Assembly.Scanning
import TapeMachine.Proofs.Assembly.Parsing
import TapeMachine.Proofs.Assembly.Printing
import TapeMachine.Proofs.Assembly.Reassembly
import TapeMachine.Proofs.Assembly.Rendering
import TapeMachine.Proofs.Assembly.Drafting
import TapeMachine.Proofs.Assembly.Layout
import TapeMachine.Proofs.Assembly.Legality
import TapeMachine.Proofs.ProgramText.Writing
import TapeMachine.Proofs.Command.Store
import TapeMachine.Proofs.Command.Typing
import TapeMachine.Proofs.Command.ProgramFile
import TapeMachine.Proofs.Command.Conversation
import TapeMachine.Proofs.Command.Limit
import TapeMachine.Proofs.Assembly.Recognition
import TapeMachine.Proofs.Assembly.Recovery
import TapeMachine.Proofs.Ring.Ordering
import TapeMachine.Proofs.Ring.Search
import TapeMachine.Proofs.Ring.Feedback
import TapeMachine.Proofs.Ring.Pipeline
import TapeMachine.Proofs.ProgramText.Reading
import TapeMachine.Proofs.Assembly.Rejection
import TapeMachine.Proofs.Assembly.Joining
import TapeMachine.Proofs.Assembly.ReservedWords
import TapeMachine.Proofs.Recall
import TapeMachine.Proofs.Ring.Interruption
import TapeMachine.Proofs.Assembly.History
