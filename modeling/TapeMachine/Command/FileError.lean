import TapeMachine.Command.Path
import TapeMachine.Text.Quoted

namespace TapeMachine.Command

inductive FileFault : Type
  | missing
  | alreadyThere
  | notDirectory
  | isDirectory
  | nameTooLong
  | zeroCharacter
  deriving DecidableEq

structure FileError : Type where
  fault : FileFault
  path : Path
  deriving DecidableEq

def FileError.message : FileError → String
  | ⟨.missing, path⟩ => s!"[Errno 2] No such file or directory: {Text.quoted path.text}"
  | ⟨.alreadyThere, path⟩ => s!"[Errno 17] File exists: {Text.quoted path.text}"
  | ⟨.notDirectory, path⟩ => s!"[Errno 20] Not a directory: {Text.quoted path.text}"
  | ⟨.isDirectory, path⟩ => s!"[Errno 21] Is a directory: {Text.quoted path.text}"
  | ⟨.nameTooLong, path⟩ => s!"[Errno 36] File name too long: {Text.quoted path.text}"
  | ⟨.zeroCharacter, _⟩ => "embedded null byte"

end TapeMachine.Command
