import TapeMachine.Assembly.Statement
import TapeMachine.Instruction.Word
import TapeMachine.Text.Position

/-!
Assembling in two passes. The first one lays the statements' words out one behind the other in a
draft, in which labels still stand by their names, and notes the address of each label. The second
one replaces the names.
-/

namespace TapeMachine.Assembly

open Text

inductive AssemblyError : Type
  | badSyntax (position : Position) (line : String)
  | duplicateLabel (name : String)
  | missingDestination
  | immediateDestination (op : Opcode) (offset : Nat)
  | unknownLabel (name : String)
  deriving DecidableEq

def AssemblyError.message : AssemblyError → String
  | .badSyntax ⟨line, column⟩ text => s!"Syntax error at line {line}, column {column}: {text}"
  | .duplicateLabel name => s!"Duplicate label {name}"
  | .missingDestination => "list index out of range"
  | .immediateDestination op offset =>
    s!"Immediate operand used as destination of {op.mnemonic} @ {offset}"
  | .unknownLabel name => s!"Unknown label {name}"

def instructionTerms (instruction : Instruction Term) : List Term :=
  .literal (Instruction.encode instruction.op instruction.modes) :: instruction.values

def Statement.terms : Statement → List Term
  | .label _ => []
  | .instruction i => instructionTerms i
  | .data terms => terms

structure Draft : Type where
  terms : Array Term
  labels : List (String × Nat)
  deriving DecidableEq

namespace Draft

def empty : Draft := ⟨#[], []⟩

def offset (draft : Draft) : Nat := draft.terms.size

def address? (draft : Draft) (name : String) : Option Nat :=
  draft.labels.lookup name

def append (draft : Draft) (terms : List Term) : Draft :=
  { draft with terms := draft.terms ++ terms }

def define (draft : Draft) (name : String) : Except AssemblyError Draft :=
  match draft.address? name with
  | some _ => .error (.duplicateLabel name)
  | none => .ok { draft with labels := draft.labels ++ [(name, draft.offset)] }

def issue (draft : Draft) (instruction : Instruction Term) : Except AssemblyError Draft :=
  if instruction.lacksDestination then .error .missingDestination
  else if instruction.storesImmediate then
    .error (.immediateDestination instruction.op draft.offset)
  else
    .ok (draft.append (instructionTerms instruction))

def add (draft : Draft) : Statement → Except AssemblyError Draft
  | .label name => draft.define name
  | .instruction instruction => draft.issue instruction
  | .data terms => .ok (draft.append terms)

def addAll (draft : Draft) : List Statement → Except AssemblyError Draft
  | [] => .ok draft
  | statement :: statements =>
    match draft.add statement with
    | .error error => .error error
    | .ok draft => draft.addAll statements

def resolveTerm (draft : Draft) : Term → Except AssemblyError Int
  | .literal value => .ok value
  | .reference name =>
    match draft.address? name with
    | some address => .ok address
    | none => .error (.unknownLabel name)

def resolveAll (draft : Draft) : List Term → Except AssemblyError (List Int)
  | [] => .ok []
  | term :: terms =>
    match draft.resolveTerm term with
    | .error error => .error error
    | .ok word =>
      match draft.resolveAll terms with
      | .error error => .error error
      | .ok words => .ok (word :: words)

def resolve (draft : Draft) : Except AssemblyError (List Int) :=
  draft.resolveAll draft.terms.toList

end Draft

def parse (text : List Char) : Except AssemblyError (List Statement) :=
  match Statement.ofChars text with
  | .ok statements => .ok statements
  | .error rest =>
    .error (.badSyntax (position text rest) (.ofList (trim isSpace (lineAt text rest))))

def assembleStatements (statements : List Statement) : Except AssemblyError (List Int) :=
  match Draft.empty.addAll statements with
  | .error error => .error error
  | .ok draft => draft.resolve

def assemble (text : String) : Except AssemblyError (List Int) :=
  match parse (expandTabs 0 text.toList) with
  | .error error => .error error
  | .ok statements => assembleStatements statements

end TapeMachine.Assembly
