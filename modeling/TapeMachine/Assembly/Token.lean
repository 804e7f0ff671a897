import TapeMachine.Instruction
import TapeMachine.Text.Blank
import TapeMachine.Text.Decimal

/-!
The tokens of assembler text. Blanks, line ends and comments, which start with two slashes and reach
to the end of their line, may stand between any two tokens. A mnemonic is reserved only where it
stands free: directly behind a digit or in front of a dollar sign it is a name like any other.
-/

namespace TapeMachine.Assembly

open Text

inductive Token : Type
  | number (value : Int)
  | name (name : String)
  | mnemonic (op : Opcode)
  | data
  | hash
  | atSign
  | colon
  | unknown
  deriving DecidableEq

structure Lexeme : Type where
  token : Token
  text : List Char
  deriving DecidableEq

def isNameStart (c : Char) : Bool := c.isAlpha || c == '_'

def isNameChar (c : Char) : Bool := c.isAlphanum || c == '_'

namespace Token

/-- The token that a run of name characters is; `free` tells whether it may be a reserved word. -/
def ofWord (free : Bool) (word : String) : Token :=
  if free then
    match Opcode.ofMnemonic? word with
    | some op => mnemonic op
    | none => if word = "DW" then data else name word
  else name word

def endsInNameChar : Token → Bool
  | number _ | name _ | mnemonic _ | data => true
  | hash | atSign | colon | unknown => false

/-- The token at the start of `c :: text`, with what follows it; `glued` tells whether a name
character stands directly in front. -/
def read (glued : Bool) (c : Char) (text : List Char) : Token × List Char :=
  if c = '#' then (hash, text)
  else if c = '@' then (atSign, text)
  else if c = ':' then (colon, text)
  else if isNameStart c then
    (ofWord (!glued && (text.dropWhile isNameChar).head? != some '$')
      (.ofList (c :: text.takeWhile isNameChar)), text.dropWhile isNameChar)
  else
    match Decimal.integer? (c :: text) with
    | some (value, rest) => (number value, rest)
    | none => (unknown, text)

theorem length_read_le (glued : Bool) (c : Char) (text : List Char) :
    (read glued c text).2.length ≤ text.length := by
  have hdrop := Decimal.length_dropWhile_le isNameChar text
  simp only [read]
  split
  · exact Nat.le_refl _
  · split
    · exact Nat.le_refl _
    · split
      · exact Nat.le_refl _
      · split
        · exact hdrop
        · split
          · next h => exact Nat.le_of_lt_succ (Decimal.length_integer? h)
          · exact Nat.le_refl _

end Token

def comment? : List Char → Option (List Char)
  | '/' :: '/' :: text => some (text.dropWhile (· != '\n'))
  | _ => none

theorem length_comment? {text rest : List Char} (h : comment? text = some rest) :
    rest.length < text.length := by
  simp only [comment?] at h
  split at h
  · next text =>
    simp only [Option.some.injEq] at h
    have hle := Decimal.length_dropWhile_le (· != '\n') text
    rw [← h]
    simp only [List.length_cons]
    omega
  · cases h

def scan (glued : Bool) (text : List Char) : List Lexeme :=
  match text with
  | [] => []
  | c :: rest =>
    if isLayout c then scan false rest
    else
      match h : comment? (c :: rest) with
      | some rest' =>
        have := length_comment? h
        scan false rest'
      | none =>
        ⟨(Token.read glued c rest).1, c :: rest⟩ ::
          scan (Token.read glued c rest).1.endsInNameChar (Token.read glued c rest).2
termination_by text.length
decreasing_by
  · exact Nat.lt_succ_self _
  · exact this
  · exact Nat.lt_succ_of_le (Token.length_read_le glued c rest)

end TapeMachine.Assembly
