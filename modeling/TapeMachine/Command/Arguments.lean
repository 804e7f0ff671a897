/-!
Command line arguments: options, which start with a dash and may stand anywhere, and operands. Two
dashes alone end the options. The value of a long option follows an equals sign or is the next
argument, whatever it looks like; short options may be run together, and the value of the last one
is the rest of the argument or the next one.
-/

namespace TapeMachine.Command

structure Switch : Type where
  key : String
  short : Option Char
  long : String
  takesValue : Bool
  deriving DecidableEq

structure Arguments : Type where
  options : List (String × String)
  operands : List String
  deriving DecidableEq

namespace Arguments

def empty : Arguments := ⟨[], []⟩

def withOptions (options : List (String × String)) (arguments : Arguments) : Arguments :=
  { arguments with options := options ++ arguments.options }

def withOperand (operand : String) (arguments : Arguments) : Arguments :=
  { arguments with operands := operand :: arguments.operands }

def splitValue (argument : List Char) : String × Option String :=
  match argument.dropWhile (· != '=') with
  | [] => (.ofList argument, none)
  | _ :: value => (.ofList (argument.takeWhile (· != '=')), some (.ofList value))

inductive Reading : Type
  | complete (options : List (String × String))
  | needsValue (options : List (String × String)) (key : String)
  | refused
  deriving DecidableEq

def Reading.withOption (key : String) : Reading → Reading
  | complete options => complete ((key, "") :: options)
  | needsValue options last => needsValue ((key, "") :: options) last
  | refused => refused

def readLong (switch : Switch) : (value : Option String) → Reading
  | none => if switch.takesValue then .needsValue [] switch.key else .complete [(switch.key, "")]
  | some value => if switch.takesValue then .complete [(switch.key, value)] else .refused

def readShorts (switches : List Switch) : List Char → Reading
  | [] => .complete []
  | c :: text =>
    match switches.find? fun switch => switch.short == some c with
    | none => .refused
    | some switch =>
      if switch.takesValue then
        if text = [] then .needsValue [] switch.key
        else .complete [(switch.key, .ofList text)]
      else
        (readShorts switches text).withOption switch.key

def readOption (switches : List Switch) (argument : List Char) : Reading :=
  let (name, value) := splitValue argument
  match switches.find? fun switch => switch.long == name with
  | some switch => readLong switch value
  | none => if argument.take 2 = ['-', '-'] then .refused else readShorts switches (argument.drop 1)

def isOption (argument : String) : Bool :=
  argument.toList.head? == some '-' && argument ≠ "-"

def read? (switches : List Switch) : List String → Option Arguments
  | [] => some empty
  | argument :: rest =>
    if argument = "--" then some ⟨[], rest⟩
    else if isOption argument then
      match readOption switches argument.toList with
      | .refused => none
      | .complete options => (read? switches rest).map (withOptions options)
      | .needsValue options key =>
        match rest with
        | [] => none
        | value :: rest => (read? switches rest).map (withOptions (options ++ [(key, value)]))
    else
      (read? switches rest).map (withOperand argument)

def has (arguments : Arguments) (key : String) : Bool :=
  arguments.options.any fun (k, _) => k == key

def values (arguments : Arguments) (key : String) : List String :=
  arguments.options.filterMap fun (k, value) => if k = key then some value else none

def value? (arguments : Arguments) (key : String) : Option String :=
  (arguments.values key).getLast?

end Arguments

end TapeMachine.Command
