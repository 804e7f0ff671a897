namespace TapeMachine.Command

structure Path : Type where
  root : String
  parts : List String
  deriving DecidableEq

namespace Path

def rootOf (name : List Char) : String :=
  match (name.takeWhile (· == '/')).length with
  | 0 => ""
  | 2 => "//"
  | _ => "/"

def ofString (name : String) : Path where
  root := rootOf name.toList
  parts := (name.splitOn "/").filter fun part => part ≠ "" ∧ part ≠ "."

def text (path : Path) : String :=
  if path.root = "" ∧ path.parts = [] then "."
  else path.root ++ "/".intercalate path.parts

def above (path : Path) : List Path :=
  (List.range path.parts.length).reverse.map fun n => { path with parts := path.parts.take n }

end Path

end TapeMachine.Command
