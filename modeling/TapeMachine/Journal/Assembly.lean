import TapeMachine.Assembly.Listing
import TapeMachine.Journal

namespace TapeMachine.Assembly

def Statement.event (offset : Nat) : Statement → Event
  | .label name => .labelled name offset
  | .instruction i => .issued i.op (Instruction.encode i.op i.modes) offset
  | .data terms => .issuedData terms.length offset

def Draft.addEvents (draft : Draft) (statement : Statement) : List Event :=
  match draft.add statement with
  | .error _ => []
  | .ok _ => [statement.event draft.offset]

def Draft.addAllEvents (draft : Draft) : List Statement → List Event
  | [] => []
  | statement :: statements =>
    match draft.add statement with
    | .error _ => []
    | .ok next => statement.event draft.offset :: next.addAllEvents statements

def totals (draft : Draft) : List Event :=
  match draft.resolve with
  | .error _ => []
  | .ok words => [.assembled words.length draft.labels.length]

def assembleEvents (text : String) : List Event :=
  match parse (Text.expandTabs 0 text.toList) with
  | .error _ => []
  | .ok statements =>
    Draft.empty.addAllEvents statements ++
      match Draft.empty.addAll statements with
      | .error _ => []
      | .ok draft => totals draft

def disassembleEvents (words : List Int) : List Event :=
  [.listed words.length (listing words 0).length]

end TapeMachine.Assembly
