import TapeMachine.Command.FileError

namespace TapeMachine.Command

inductive Origin : Type
  | root
  | above (levels : Nat)
  deriving DecidableEq

structure Place : Type where
  origin : Origin
  names : List String
  deriving DecidableEq

namespace Place

def home : Place := ⟨.above 0, []⟩

def child (place : Place) (name : String) : Place :=
  { place with names := place.names ++ [name] }

def parent : Place → Place
  | ⟨.root, []⟩ => ⟨.root, []⟩
  | ⟨.above levels, []⟩ => ⟨.above (levels + 1), []⟩
  | ⟨origin, names⟩ => ⟨origin, names.dropLast⟩

def longestName : Nat := 255

def follow (here : Place) (name : String) : Except FileFault Place :=
  if name = ".." then .ok here.parent
  else if longestName < name.utf8ByteSize then .error .nameTooLong
  else .ok (here.child name)

end Place

namespace Path

def start (path : Path) : Place :=
  if path.root = "" then .home else ⟨.root, []⟩

def longest : Nat := 4095

def fault? (path : Path) : Option FileFault :=
  if path.text.toList.contains '\x00' then some .zeroCharacter
  else if longest < path.text.utf8ByteSize then some .nameTooLong
  else none

end Path

end TapeMachine.Command
