import MoveBytecode.Command.Run

/-! The command line on the files of the machine. -/

set_option autoImplicit false

namespace MoveBytecode

def attempt {α : Type} (action : IO α) : IO (Option α) := do
  try return some (← action) catch _ => return none

/-- The text is written beside its place and moved there as a whole. -/
def writeWhole (path text : String) : IO Unit := do
  let beside := path ++ ".part"
  IO.FS.writeFile beside text
  try IO.FS.rename beside path
  catch error =>
    IO.FS.removeFile beside
    throw error

def printWhole (text : String) : IO Unit := do
  let output ← IO.getStdout
  output.putStr text
  output.flush

def machine : Host IO where
  standardInput := attempt do (← IO.getStdin).readToEnd
  read path := attempt (IO.FS.readFile path)
  holds path := do return (← attempt (IO.FS.realPath path)).isSome
  write path text := do return (← attempt (writeWhole path text)).isSome
  print text := do return (← attempt (printWhole text)).isSome
  report line := IO.eprintln line

end MoveBytecode

open MoveBytecode in
def main (words : List String) : IO UInt32 := do
  try
    let ending ← machine.run words
    if ending matches .misused then let _ ← attempt (IO.eprintln (Help.text none))
    return UInt32.ofNat ending.exitCode
  -- Only a report throws.
  catch _ => return 101
