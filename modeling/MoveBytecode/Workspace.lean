import MoveBytecode.Command.Run
import MoveBytecode.Text

/-! A directory of text files as a host: directories are there as far as files are in them, and paths lead from its
top and not out of it. -/

set_option autoImplicit false

namespace MoveBytecode

structure Workspace where
  files : List (List String × String)
  standardInput : String
  output : String := ""
  reports : List String := []
  deriving DecidableEq, Repr

structure Result where
  output : String
  status : Option String
  deriving DecidableEq, Repr

structure FailedResult extends Failure where
  output : String
  deriving DecidableEq, Repr

inductive Outcome where
  | done (result : Result)
  | failed (result : FailedResult)
  | misused
  deriving DecidableEq, Repr

namespace Outcome

def exitCode : Outcome → Nat
  | done _ => Ending.done.exitCode
  | failed result => (Ending.failed result.toFailure).exitCode
  | misused => Ending.misused.exitCode

def output : Outcome → String
  | done result => result.output
  | failed result => result.output
  | misused => ""

end Outcome

namespace Workspace

/-- What a path leads to. A vacant place is one where a file can be put. -/
inductive Place where
  | directory
  | file (names : List String) (text : String)
  | vacant (names : List String)
  | nowhere
  deriving DecidableEq, Repr

def namesOf (path : String) : List String := (Text.splitOn '/' path.toList).map String.ofList

def ofFiles (files : List (String × String)) (standardInput : String) : Workspace :=
  { files := files.map fun (path, text) => (namesOf path, text), standardInput }

def isDirectory (workspace : Workspace) (names : List String) : Bool :=
  names.isEmpty || workspace.files.any fun (file, _) => names.length < file.length && names.isPrefixOf file

/-- Names followed from a directory on; an empty name stays where it is. -/
def follow (workspace : Workspace) (directory : List String) : List String → Place
  | [] => .directory
  | name :: rest =>
    if name = "" ∨ name = "." then workspace.follow directory rest
    else if name = ".." then
      if directory.isEmpty then if rest.isEmpty then .directory else .nowhere
      else workspace.follow directory.dropLast rest
    else
      let names := directory ++ [name]
      if workspace.isDirectory names then workspace.follow names rest
      else if !rest.isEmpty then .nowhere
      else
        match workspace.files.lookup names with
        | some text => .file names text
        | none => .vacant names

def place (workspace : Workspace) (path : String) : Place :=
  match namesOf path with
  | "" :: _ => .nowhere
  | names => workspace.follow [] names

def read? (workspace : Workspace) (path : String) : Option String :=
  match workspace.place path with
  | .file _ text => some text
  | _ => none

def holds (workspace : Workspace) (path : String) : Bool :=
  match workspace.place path with
  | .file .. | .directory => true
  | .vacant _ | .nowhere => false

def put (workspace : Workspace) (names : List String) (text : String) : Workspace :=
  { workspace with files := workspace.files.filter (fun (file, _) => file ≠ names) ++ [(names, text)] }

def write? (workspace : Workspace) (path text : String) : Option Workspace :=
  match workspace.place path with
  | .file names _ | .vacant names => some (workspace.put names text)
  | .directory | .nowhere => none

def host : Host (StateM Workspace) where
  standardInput := do return some (← get).standardInput
  read path := do return (← get).read? path
  holds path := do return (← get).holds path
  write path text := do
    match (← get).write? path text with
    | some written => set written; return true
    | none => return false
  print text := do
    modify fun workspace => { workspace with output := workspace.output ++ text }
    return true
  report line := modify fun workspace => { workspace with reports := workspace.reports ++ [line] }

def outcome (workspace : Workspace) : Ending → Outcome
  | .done => .done ⟨workspace.output, workspace.reports.getLast?⟩
  | .failed failure => .failed ⟨failure, workspace.output⟩
  | .misused => .misused

def run (workspace : Workspace) (words : List String) : Outcome × Workspace :=
  let (ending, after) := (host.run words).run workspace
  (after.outcome ending, after)

def changes (before after : Workspace) : List (String × String) :=
  (after.files.filter fun file => !before.files.contains file).map fun (names, text) =>
    ("/".intercalate names, text)

end Workspace

end MoveBytecode
