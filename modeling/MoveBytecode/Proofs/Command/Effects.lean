import MoveBytecode.Proofs.Command.Arguments
import MoveBytecode.Proofs.Command.Files
import MoveBytecode.Proofs.Report

/-! What a command does to files and to the standard output. All that can fail comes before the one file is written or the
one text is printed, but for the report of the success itself. -/

set_option autoImplicit false

namespace MoveBytecode

namespace Host

variable {σ Place : Type} {host : Host (EStateM Panic σ)} {scene : σ → Scene Place}

end Host

end MoveBytecode
