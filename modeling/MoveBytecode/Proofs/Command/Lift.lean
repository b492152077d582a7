import MoveBytecode.Proofs.Command.Host

/-! A host that cannot panic, among those that can: every command does on it what it does without panics. -/

set_option autoImplicit false

namespace MoveBytecode

section
variable {σ α β : Type}

namespace Host

variable (host : Host (StateM σ))

end Host

end

end MoveBytecode
