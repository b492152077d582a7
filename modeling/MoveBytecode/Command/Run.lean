import MoveBytecode.Command.Help

/-! A command line from its words to its ending. -/

set_option autoImplicit false

namespace MoveBytecode

inductive Ending where
  | done
  | failed (failure : Failure)
  | misused
  deriving DecidableEq, Repr

def Ending.exitCode : Ending → Nat
  | done => 0
  | failed _ => 1
  | misused => 2

namespace Host

variable {m : Type → Type} [Monad m]

/-- A text about the commands is shown if that can be done. -/
def run (host : Host m) (words : List String) : m Ending := do
  match Arguments.parse words with
  | .error .misuse => return .misused
  | .error .version =>
    let _ ← host.print Help.version
    return .done
  | .error (.help topic) =>
    let _ ← host.print (Help.text topic)
    return .done
  | .ok command =>
    match ← (host.execute command).run with
    | .ok () => return .done
    | .error failure =>
      let failure := failure.during .runningCommand
      host.report s!"error: {failure.message}"
      return .failed failure

end Host

end MoveBytecode
