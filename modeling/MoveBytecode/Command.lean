import MoveBytecode.Package

/-! The commands, and what each does to the host it runs on: texts are read, one text is made, it goes to the standard
output or into one file, and a line on the standard error tells of it. -/

set_option autoImplicit false

namespace MoveBytecode

inductive Source where
  | standardInput
  | file (path : String)
  deriving DecidableEq, Repr

structure Destination where
  path : Option String
  overwrite : Bool
  deriving DecidableEq, Repr

inductive Command where
  | inspect (source : Source) (format : ReportFormat) (config : Option String)
  | edit (source : Source) (config : String) (destination : Destination)
  | package (source : Source) (config : String) (module : Option String) (destination : Destination)
  | verify (source : Source)
  deriving DecidableEq, Repr

/-- What a command asks of the machine. Reading fails for what is no text; writing and printing tell whether they were
done. A report that cannot be made is an exception of the monad, after which nothing else happens. -/
structure Host (m : Type → Type) where
  standardInput : m (Option String)
  read : String → m (Option String)
  holds : String → m Bool
  write : String → String → m Bool
  print : String → m Bool
  report : String → m Unit

def statusLine (word remark : String) : String := s!"\x1b[1m\x1b[32m{word}\x1b[39m\x1b[0m {remark}"

namespace Host

variable {m : Type → Type} [Monad m]

def readSource (host : Host m) (source : Source) : m (Except Failure String) := do
  match source with
  | .standardInput => return someOr ⟨[.readingStandardInput], .host⟩ (← host.standardInput)
  | .file path => return someOr ⟨[.readingInput path], .host⟩ (← host.read path)

def readConfig (host : Host m) (path : String) : m (Except Failure Config) := do
  match ← host.read path with
  | none => return .error ⟨[.readingConfig path], .host⟩
  | some text => return during (.loadingConfig path) (Config.ofText text)

/-- Without a configuration there are no labels. -/
def readLabels (host : Host m) : Option String → m (Except Failure Aliases)
  | none => return .ok []
  | some path => do return (← host.readConfig path).map Config.aliases

/-- The text is printed, or goes into the file of the destination, which must be new or open to overwriting. -/
def deliver (host : Host m) (destination : Destination) (text : String) : m (Except Failure Unit) := do
  match destination.path with
  | none => if ← host.print text then return .ok () else return .error (.of .host)
  | some path =>
    if (← host.holds path) && !destination.overwrite then
      return .error (.of (.refused (.outputExists path)))
    else if ← host.write path text then return .ok ()
    else return .error ⟨[.writingOutput path], .host⟩

def inspect (host : Host m) (source : Source) (format : ReportFormat) (config : Option String) :
    ExceptT Failure m Unit := do
  let text ← ExceptT.mk (host.readSource source)
  let aliases ← ExceptT.mk (host.readLabels config)
  let report ← ExceptT.mk (pure (inspectModule text format aliases))
  ExceptT.mk (host.deliver ⟨none, true⟩ report)

/-- What is made of a source with a configuration is delivered as one line, and that is reported. -/
def transform (host : Host m) (source : Source) (config : String) (destination : Destination) (word : String)
    (make : String → Config → Except Failure String) : ExceptT Failure m Unit := do
  let text ← ExceptT.mk (host.readSource source)
  let loaded ← ExceptT.mk (host.readConfig config)
  let made ← ExceptT.mk (pure (make text loaded))
  ExceptT.mk (host.deliver destination (made ++ "\n"))
  host.report (statusLine word (destination.path.getD "stdout"))

def verified (text : String) : Except Failure String := do
  let bytes ← decodeBase64 text
  verifyModule bytes
  summaryLine bytes (← orCause .decode (Module.decode bytes))

def verify (host : Host m) (source : Source) : ExceptT Failure m Unit := do
  let text ← ExceptT.mk (host.readSource source)
  let remark ← ExceptT.mk (pure (verified text))
  host.report (statusLine "VERIFY" remark)

def execute (host : Host m) : Command → ExceptT Failure m Unit
  | .inspect source format config => host.inspect source format config
  | .edit source config destination => host.transform source config destination "EDIT" editModule
  | .package source config module destination =>
    host.transform source config destination "PACKAGE" fun text config => editPackage text config module
  | .verify source => host.verify source

end Host

end MoveBytecode
