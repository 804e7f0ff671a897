import TapeMachine.Text.Blank
import TapeMachine.Text.Digit

namespace TapeMachine.Text.Numeral

def digits? (value : Nat) : List Char → Option Nat
  | [] => some value
  | '_' :: c :: text =>
    match digit? c with
    | none => none
    | some d => digits? (10 * value + d) text
  | c :: text =>
    match digit? c with
    | none => none
    | some d => digits? (10 * value + d) text

def natural? : List Char → Option Nat
  | [] => none
  | c :: text =>
    match digit? c with
    | none => none
    | some d => digits? d text

def signed? : List Char → Option Int
  | '+' :: text => (natural? text).map fun n => (n : Int)
  | '-' :: text => (natural? text).map fun n => -(n : Int)
  | text => (natural? text).map fun n => (n : Int)

def read? (text : String) : Option Int :=
  signed? (trim isPadding text.toList)

end TapeMachine.Text.Numeral
