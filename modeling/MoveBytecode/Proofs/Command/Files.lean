import MoveBytecode.Proofs.Command.Lift
import MoveBytecode.Proofs.Lookup
import MoveBytecode.Workspace

/-! A workspace as the machine of a command: its paths lead to places that stay where they are whatever is written, and
all that is asked of it meets the assumptions. -/

set_option autoImplicit false

namespace MoveBytecode

namespace Workspace

def Place.names? : Place → Option (List String)
  | .file names _ | .vacant names => some names
  | .directory | .nowhere => none

def tree (workspace : Workspace) : Files (List String) where
  find? path := (workspace.place path).names?
  entry? path := (workspace.place path).names?
  bytes? names := (workspace.files.lookup names).map Bytes.ofText

def scene (workspace : Workspace) : Scene (List String) where
  files := workspace.tree
  input := Bytes.ofText workspace.standardInput
  output := workspace.output

variable {workspace : Workspace} {directory names rest : List String} {text : String}

def Open (workspace : Workspace) (names : List String) : Prop :=
  ∀ part, part <+: names → workspace.isDirectory part = true

theorem Open.dropLast (opened : workspace.Open directory) : workspace.Open directory.dropLast :=
  fun part within => opened part (within.trans directory.dropLast_prefix)

/-- A place of a file lies in a directory that is there, and tells what the file holds. -/
def Place.Fits (workspace : Workspace) : Place → Prop
  | .file names text => workspace.Open names.dropLast ∧ workspace.files.lookup names = some text
  | .vacant names => workspace.Open names.dropLast ∧ workspace.files.lookup names = none
  | .directory | .nowhere => True

end Workspace

end MoveBytecode
