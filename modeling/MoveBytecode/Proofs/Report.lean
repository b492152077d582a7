import MoveBytecode.Proofs.Base64
import MoveBytecode.Proofs.Module.RoundTrip
import MoveBytecode.Report

/-! The tasks on one module. A check that a module is written as it was read finds nothing to object to: it fails only
where the module cannot be read. -/

set_option autoImplicit false

namespace MoveBytecode

section
variable {α ε : Type} {value : α}

@[simp] theorem during_eq_ok {activity : Activity} {result : Except Failure α} :
    during activity result = .ok value ↔ result = .ok value := Steps.mapError_eq_ok

@[simp] theorem orCause_eq_ok {cause : ε → Cause} {result : Except ε α} :
    orCause cause result = .ok value ↔ result = .ok value := Steps.mapError_eq_ok

@[simp] theorem someOr_eq_ok {failure : Failure} {result? : Option α} :
    someOr failure result? = .ok value ↔ result? = some value := by
  cases result? <;> simp [someOr]

end

@[simp] theorem decodeBase64_eq_ok {text : String} {bytes : Bytes} :
    decodeBase64 text = .ok bytes ↔ Text.trim text.toList = Base64.encode bytes := by
  rw [decodeBase64, during_eq_ok, someOr_eq_ok, Base64.decode?_eq_some]

theorem decodeModule_eq_ok {bytes : Bytes} {module : Module} :
    decodeModule bytes = .ok module ↔ Module.decode bytes = .ok module := by
  simp [decodeModule]

theorem verifyModule_of_decode {bytes : Bytes} {module : Module} (read : Module.decode bytes = .ok module) :
    verifyModule bytes = .ok () := by
  have written := Module.encode_of_decode read
  have checked := Module.encodeChecked_of_decode written read
  refine Steps.bind_eq_ok.mpr ⟨module, decodeModule_eq_ok.mpr read, ?_⟩
  refine Steps.bind_eq_ok.mpr ⟨bytes, orCause_eq_ok.mpr written, ?_⟩
  simp only [ne_eq, not_true_eq_false, if_false]
  exact Steps.bind_eq_ok.mpr ⟨bytes, orCause_eq_ok.mpr checked, rfl⟩

namespace Module

/-- Whatever is read is written again byte for byte, so a check for it accepts what can be read and nothing else. -/
theorem encode_decoded (bytes : Bytes) :
    (∀ module, decode bytes = .ok module → module.encode = .ok bytes ∧ module.encodeChecked = .ok bytes) ∧
    (verifyModule bytes = .ok () ↔ ∃ module, decode bytes = .ok module) ∧
    ∀ other module, decode bytes = .ok module → decode other = .ok module → bytes = other := by
  refine ⟨fun module read => ?_, ?_, fun other module read read' => ?_⟩
  · have written := encode_of_decode read
    exact ⟨written, encodeChecked_of_decode written read⟩
  · constructor
    · intro verified
      obtain ⟨module, read, _⟩ := Steps.bind_eq_ok.mp verified
      exact ⟨module, decodeModule_eq_ok.mp read⟩
    · intro decoded
      obtain ⟨module, read⟩ := decoded
      exact verifyModule_of_decode read
  · have written := encode_of_decode read
    rw [encode_of_decode read'] at written
    exact (Except.ok.inj written).symm

theorem encode_decoded_coin : decode coinBytes = .ok coin ∧ coin.encode = .ok coinBytes ∧
    coin.encodeChecked = .ok coinBytes ∧ verifyModule coinBytes = .ok () := by
  have read : decode coinBytes = .ok coin := by decide +kernel
  obtain ⟨written, verified, _⟩ := encode_decoded coinBytes
  exact ⟨read, (written coin read).1, (written coin read).2, verified.mpr ⟨coin, read⟩⟩

end Module

end MoveBytecode
