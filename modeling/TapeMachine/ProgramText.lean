import TapeMachine.Text.Decimal
import TapeMachine.Text.Position

namespace TapeMachine.ProgramText

open Text

structure SyntaxError : Type where
  position : Position
  deriving DecidableEq

def SyntaxError.message (error : SyntaxError) : String :=
  s!"Bad program text at line {error.position.line}, column {error.position.column}"

def skip (text : List Char) : List Char := text.dropWhile isLayout

theorem length_skip_le (text : List Char) : (skip text).length ≤ text.length :=
  Decimal.length_dropWhile_le isLayout text

def next? (text : List Char) : Option (Int × List Char) :=
  match skip text with
  | ',' :: text => Decimal.integer? (skip text)
  | _ => none

theorem length_next? {text rest : List Char} {n : Int} (h : next? text = some (n, rest)) :
    rest.length < text.length := by
  simp only [next?] at h
  split at h
  · next tail heq =>
    have h1 := Decimal.length_integer? h
    have h2 := length_skip_le tail
    have h3 := length_skip_le text
    rw [heq] at h3
    simp only [List.length_cons] at h3
    omega
  · cases h

def tail (text : List Char) : List Int × List Char :=
  match h : next? text with
  | none => ([], text)
  | some (n, rest) =>
    have := length_next? h
    match tail rest with
    | (ns, rest) => (n :: ns, rest)
termination_by text.length

def readChars (text : List Char) : Except SyntaxError (List Int) :=
  match Decimal.integer? (skip text) with
  | none => .error ⟨position text (skip text)⟩
  | some (n, rest) =>
    match tail rest with
    | (ns, rest) =>
      if (skip rest).isEmpty then .ok (n :: ns) else .error ⟨position text (skip rest)⟩

def read (text : String) : Except SyntaxError (List Int) :=
  readChars (expandTabs 0 text.toList)

def write (program : List Int) : String :=
  ",".intercalate (program.map toString)

end TapeMachine.ProgramText
