import MoveBytecode.Template

/-! Why a task could not be done: a cause, and the activities it came up in. -/

set_option autoImplicit false

namespace MoveBytecode

inductive Activity where
  | runningCommand
  | readingStandardInput
  | readingInput (path : String)
  | readingConfig (path : String)
  | loadingConfig (path : String)
  | parsingConfig
  | parsingManifest
  | decodingBase64
  | decodingModule
  | instantiating
  | handlingModule (index : Nat)
  | wideningDependency (text : String)
  | writingOutput (path : String)
  deriving DecidableEq, Repr

def Activity.message : Activity → String
  | runningCommand => "échec d'exécution de la commande"
  | readingStandardInput => "lecture stdin"
  | readingInput path => s!"lecture: {path}"
  | readingConfig path => s!"lecture config: {path}"
  | loadingConfig path => s!"config: {path}"
  | parsingConfig => "configuration JSON invalide"
  | parsingManifest => "manifeste JSON invalide"
  | decodingBase64 => "base64 invalide"
  | decodingModule => "décodage du module"
  | instantiating => "instanciation du template"
  | handlingModule index => s!"module #{index}"
  | wideningDependency text => s!"dépendance `{text}`"
  | writingOutput path => s!"écriture de {path}"

inductive Refusal where
  | noSuchIndex (index : Nat)
  | noSuchModule (name : String)
  | severalModules (count : Nat)
  | nestedModules (name : String)
  | targetedTwice (name : String)
  | differsFrom (position written given : Nat)
  | outputExists (path : String)
  deriving DecidableEq, Repr

def Refusal.message : Refusal → String
  | noSuchIndex index => s!"module #{index} absent"
  | noSuchModule name => s!"aucun module `{name}` dans le package"
  | severalModules count => s!"le package contient {count} modules, choisir avec --module"
  | nestedModules name => s!"config du module `{name}` : `modules` imbriqué"
  | targetedTwice name => s!"module `{name}` visé deux fois par la config"
  | differsFrom position written given =>
    s!"ré-encodage différent à l'octet {position} ({written} vs {given} octets)"
  | outputExists path => s!"fichier de sortie existe déjà: {path}"

/-- Malformed JSON or base64 and a refusal by the host are known by the activity alone. -/
inductive Cause where
  | decode (error : DecodeError)
  | edit (error : EditError)
  | encode (error : EncodeError)
  | address (error : AddressError)
  | json
  | base64
  | host
  | refused (refusal : Refusal)
  deriving DecidableEq, Repr

def Cause.ofTemplate : TemplateError → Cause
  | .decode error => decode error
  | .edit error => edit error
  | .encode error => encode error

/-- The error and then the one it was caused by, though the first shows the text of the second already. -/
def Cause.messages : Cause → List String
  | decode error => [error.message]
  | edit error => error.message :: error.causeMessage?.toList
  | encode error => [error.message]
  | address error => [error.message]
  | json | base64 | host => []
  | refused refusal => [refusal.message]

/-- The outermost activity comes first. -/
structure Failure where
  activities : List Activity
  cause : Cause
  deriving DecidableEq, Repr

namespace Failure

def of (cause : Cause) : Failure := ⟨[], cause⟩

def during (activity : Activity) (failure : Failure) : Failure :=
  { failure with activities := activity :: failure.activities }

def message (failure : Failure) : String :=
  ": ".intercalate (failure.activities.map Activity.message ++ failure.cause.messages)

end Failure

def during {α : Type} (activity : Activity) (result : Except Failure α) : Except Failure α :=
  result.mapError (Failure.during activity)

def orCause {ε α : Type} (cause : ε → Cause) (result : Except ε α) : Except Failure α :=
  result.mapError fun error => .of (cause error)

def someOr {α : Type} (failure : Failure) : Option α → Except Failure α
  | some result => .ok result
  | none => .error failure

end MoveBytecode
