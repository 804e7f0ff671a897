import TapeMachine.Command.Place

namespace TapeMachine.Command

/-- Makes the directories on the way to a file, given the nearest one first. One that is there will
do; where the way to one is missing, those above it are made before it. -/
def makeWay {m : Type → Type} [Monad m] (ensure : Path → m (Except FileFault Unit)) :
    List Path → m (Except FileError Unit)
  | [] => return .ok ()
  | path :: above => do
    match ← ensure path with
    | .ok () => return .ok ()
    | .error .missing =>
      match ← makeWay ensure above with
      | .error error => return .error error
      | .ok () => return (← ensure path).mapError (⟨·, path⟩)
    | .error fault => return .error ⟨fault, path⟩

inductive Node : Type
  | file (text : String)
  | directory
  deriving DecidableEq

structure Store : Type where
  entries : List (Place × Node)
  deriving DecidableEq

namespace Store

def empty : Store := ⟨[]⟩

def node? (store : Store) (place : Place) : Option Node :=
  if place.names = [] then some .directory else store.entries.lookup place

def put (store : Store) (place : Place) (node : Node) : Store :=
  ⟨(place, node) :: store.entries⟩

def walk (store : Store) (here : Place) : List String → Except FileFault Place
  | [] => .ok here
  | [name] => here.follow name
  | name :: names =>
    match here.follow name with
    | .error fault => .error fault
    | .ok place =>
      match store.node? place with
      | some .directory => walk store place names
      | some (.file _) => .error .notDirectory
      | none => .error .missing

def locate (store : Store) (path : Path) : Except FileFault Place :=
  match path.fault? with
  | some fault => .error fault
  | none => store.walk path.start path.parts

def fetch (store : Store) (path : Path) : Except FileFault String :=
  match store.locate path with
  | .error fault => .error fault
  | .ok place =>
    match store.node? place with
    | some (.file text) => .ok text
    | some .directory => .error .isDirectory
    | none => .error .missing

def read (store : Store) (path : Path) : Except FileError String :=
  (store.fetch path).mapError (⟨·, path⟩)

def ensureDirectory (path : Path) : StateM Store (Except FileFault Unit) := fun store =>
  match store.locate path with
  | .error fault => (.error fault, store)
  | .ok place =>
    match store.node? place with
    | some .directory => (.ok (), store)
    | some (.file _) => (.error .alreadyThere, store)
    | none => (.ok (), store.put place .directory)

def deposit (path : Path) (text : String) : StateM Store (Except FileFault Unit) := fun store =>
  match store.locate path with
  | .error fault => (.error fault, store)
  | .ok place =>
    match store.node? place with
    | some .directory => (.error .isDirectory, store)
    | _ => (.ok (), store.put place (.file text))

/-- Writes a file after making the directories that lead to it; these stay even where the file
cannot be written. -/
def write (path : Path) (text : String) : StateM Store (Except FileError Unit) := do
  match ← makeWay ensureDirectory path.above with
  | .error error => return .error error
  | .ok () => return (← deposit path text).mapError (⟨·, path⟩)

def ofFiles (files : List (String × String)) : Store :=
  files.foldl (fun store (name, text) => (write (.ofString name) text store).2) empty

def newFiles (store old : Store) : List (Path × String) :=
  store.entries.filterMap fun
    | (⟨.above 0, names⟩, .file text) =>
      if (old.node? ⟨.above 0, names⟩).isSome then none else some (⟨"", names⟩, text)
    | _ => none

end Store

end TapeMachine.Command
