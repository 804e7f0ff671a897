import TapeMachine.Text.Blank

namespace TapeMachine.Text

/-- Replaces each tab by the blanks that lead to the next column divisible by eight. -/
def expandTabs : (column : Nat) → List Char → List Char
  | _, [] => []
  | column, c :: text =>
    if c = '\t' then
      List.replicate (8 - column % 8) ' ' ++ expandTabs 0 text
    else
      c :: expandTabs (if c = '\n' || c = '\r' then 0 else column + 1) text

def unifyLineEnds : List Char → List Char
  | [] => []
  | '\r' :: '\n' :: text => '\n' :: unifyLineEnds text
  | '\r' :: text => '\n' :: unifyLineEnds text
  | c :: text => c :: unifyLineEnds text

structure Position : Type where
  line : Nat
  column : Nat
  deriving DecidableEq

def before (text rest : List Char) : List Char :=
  text.take (text.length - rest.length)

def lineBefore (text rest : List Char) : List Char :=
  ((before text rest).reverse.takeWhile (· != '\n')).reverse

def position (text rest : List Char) : Position where
  line := (before text rest).count '\n' + 1
  column := (lineBefore text rest).length + 1

def lineAt (text rest : List Char) : List Char :=
  lineBefore text rest ++ rest.takeWhile (· != '\n')

@[simp] theorem before_append (front rest : List Char) : before (front ++ rest) rest = front := by
  simp [before]

end TapeMachine.Text
