import MoveBytecode.Command

/-! The words of a command line as a command. Switches stand before the name of a command or behind it, those of
the two places counted apart; two hyphens alone end the switches. -/

set_option autoImplicit false

namespace MoveBytecode.Arguments

/-- Why a command line is no command: it is misused, or asks for a text about the commands. -/
inductive Stop where
  | misuse
  | version
  | help (command : Option String)
  deriving DecidableEq, Repr

/-- What a switch means where it is given: a flag once, a count any number of times, a value once and only one that
is accepted, or the end of the reading. -/
inductive Meaning where
  | flag
  | count
  | value (accepts : String → Bool)
  | stop (stop : Stop)

structure Switch where
  letter : Option Char
  word : String
  meaning : Meaning

def isPath (value : String) : Bool := value ≠ ""

def isColor (value : String) : Bool := ["auto", "always", "never"].contains value

def configSwitch : Switch := ⟨some 'c', "config", .value isPath⟩

def destinationSwitches : List Switch := [⟨some 'o', "output", .value isPath⟩, ⟨none, "overwrite", .flag⟩]

def moduleSwitch : Switch := ⟨some 'm', "module", .value fun _ => true⟩

def sharedSwitches : List Switch := [
  ⟨some 'v', "verbose", .count⟩, ⟨some 'q', "quiet", .flag⟩, ⟨none, "color", .value isColor⟩]

def helpSwitch (command : Option String) : Switch := ⟨some 'h', "help", .stop (.help command)⟩

/-- The switches of one place in the line, the names that end it, and whether an operand may stand there. -/
structure Level where
  switches : List Switch
  names : List String
  hasOperand : Bool

def commandNames : List String := ["inspect", "edit", "package", "verify"]

def outerLevel : Level where
  switches := sharedSwitches ++ [helpSwitch none, ⟨some 'V', "version", .stop .version⟩]
  names := commandNames ++ ["help"]
  hasOperand := false

def ownSwitches (name : String) : List Switch :=
  if name = "inspect" then [⟨none, "json", .flag⟩, ⟨none, "summary", .flag⟩, configSwitch]
  else if name = "edit" then configSwitch :: destinationSwitches
  else if name = "package" then configSwitch :: moduleSwitch :: destinationSwitches
  else []

def commandLevel (name : String) : Level where
  switches := ownSwitches name ++ sharedSwitches ++ [helpSwitch (some name)]
  names := []
  hasOperand := true

/-- What a level was given: switches by their words, and a value in a word of its own that is not yet accepted. -/
structure Given where
  switches : List (String × String)
  operand : Option String
  pending : Option (Switch × String)

namespace Given

def nothing : Given := ⟨[], none, none⟩

def value? (given : Given) (word : String) : Option String := given.switches.lookup word

def has (given : Given) (word : String) : Bool := (given.value? word).isSome

def add (given : Given) (switch : Switch) (value : String) : Except Stop Given :=
  let added : Given := { given with switches := given.switches ++ [(switch.word, value)] }
  match switch.meaning with
  | .flag => if given.has switch.word then .error .misuse else .ok added
  | .count => .ok added
  | .value accepts => if given.has switch.word || !accepts value then .error .misuse else .ok added
  | .stop stop => .error stop

/-- A pending value is looked at when the next switch or operand comes, or at the end. -/
def settle (given : Given) : Except Stop Given :=
  match given.pending with
  | none => .ok given
  | some (switch, value) => { given with pending := none }.add switch value

def take (given : Given) (switch : Switch) (value : String) : Except Stop Given := do
  (← given.settle).add switch value

def takeOperand (level : Level) (given : Given) (operand : String) : Except Stop Given := do
  let given ← given.settle
  if level.hasOperand && given.operand.isNone && isPath operand then return { given with operand := some operand }
  else throw .misuse

end Given

def attached : List Char → String
  | '=' :: value => String.ofList value
  | value => String.ofList value

/-- Letters behind one hyphen; the first that takes a value takes the rest, or else the next word. -/
def readLetters (level : Level) (given : Given) : List Char → Except Stop (Given × Option Switch)
  | [] => .ok (given, none)
  | letter :: rest =>
    match level.switches.find? (·.letter = some letter) with
    | none => .error .misuse
    | some switch =>
      match switch.meaning with
      | .value _ => do
        if rest.isEmpty then return (← given.settle, some switch)
        else return (← given.take switch (attached rest), none)
      | _ => do readLetters level (← given.take switch "") rest

def readWord (level : Level) (given : Given) (text : List Char) : Except Stop (Given × Option Switch) :=
  let word := String.ofList (text.takeWhile (· ≠ '='))
  let value := text.dropWhile (· ≠ '=')
  match level.switches.find? (·.word = word) with
  | none => .error .misuse
  | some switch =>
    match switch.meaning with
    | .value _ => do
      if value.isEmpty then return (← given.settle, some switch)
      else return (← given.take switch (attached value), none)
    | _ => do
      if value.isEmpty then return (← given.take switch "", none)
      else throw .misuse

/-- One hyphen alone is a value like any other. -/
def isSwitch (word : String) : Bool := word.toList.head? = some '-' && word ≠ "-"

def readLevel (level : Level) (given : Given) : List String → Except Stop (Given × Option (String × List String))
  | [] => .ok (given, none)
  | word :: rest =>
    if level.names.contains word then .ok (given, some (word, rest))
    else if word = "--" then do return (← rest.foldlM (Given.takeOperand level) given, none)
    else if isSwitch word then
      let read := match word.toList with
        | '-' :: '-' :: text => readWord level given text
        | text => readLetters level given (text.drop 1)
      match read with
      | .error stop => .error stop
      | .ok (given, none) => readLevel level given rest
      | .ok (given, some switch) =>
        match rest with
        | [] => .error .misuse
        | value :: rest =>
          if isSwitch value then .error .misuse
          else readLevel level { given with pending := some (switch, value) } rest
    else
      match given.takeOperand level word with
      | .error stop => .error stop
      | .ok given => readLevel level given rest

def source (given : Given) : Source :=
  match given.operand with
  | none => .standardInput
  | some path => if path = "-" then .standardInput else .file path

def destination (given : Given) : Destination := ⟨given.value? "output", given.has "overwrite"⟩

def format (given : Given) : ReportFormat :=
  if given.has "json" then .json else if given.has "summary" then .summary else .listing

def command (name : String) (given : Given) : Except Stop Command :=
  if name = "inspect" then
    if given.has "json" && given.has "summary" then .error .misuse
    else .ok (.inspect (source given) (format given) (given.value? "config"))
  else if name = "verify" then .ok (.verify (source given))
  else
    match given.value? "config" with
    | none => .error .misuse
    | some config =>
      if name = "edit" then .ok (.edit (source given) config (destination given))
      else .ok (.package (source given) config (given.value? "module") (destination given))

def helpTopic : List String → Stop
  | [] => .help none
  | [name] => if outerLevel.names.contains name then .help (some name) else .misuse
  | _ => .misuse

def parse (words : List String) : Except Stop Command := do
  let (outer, named) ← readLevel outerLevel .nothing words
  match named with
  | none => throw .misuse
  | some (name, rest) =>
    if name = "help" then throw (helpTopic rest)
    let (inner, _) ← readLevel (commandLevel name) .nothing rest
    let command ← command name (← inner.settle)
    let _ ← outer.settle
    return command

end MoveBytecode.Arguments
