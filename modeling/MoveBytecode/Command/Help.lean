import MoveBytecode.Command.Arguments

/-! The texts about the commands. -/

set_option autoImplicit false

namespace MoveBytecode.Help

def version : String := "movetpl 0.1.0\n"

def table (rows : List (String × String)) : List String :=
  let width := rows.foldl (fun width (term, _) => max width term.length) 0
  rows.map fun (term, meaning) => "  " ++ View.left width term ++ "  " ++ meaning

/-- A switch in a list of them: its letter, or its word where it has none, and the two columns. -/
structure Row where
  key : String
  term : String
  meaning : String
  deriving DecidableEq, Repr

def Row.columns (row : Row) : String × String := (row.term, row.meaning)

def interleave : List Row → List Row → List Row
  | [], rows => rows
  | rows, [] => rows
  | first :: firsts, second :: seconds =>
    (if first.key < second.key then [first, second] else [second, first]) ++ interleave firsts seconds

def sharedRows : List Row := [
  ⟨"v", "-v, --verbose...", "Augmente la verbosité (-v, -vv, -vvv)"⟩,
  ⟨"q", "-q, --quiet", "Mode silencieux (casse la verbosité)"⟩,
  ⟨"color", "    --color <COLOR>", "Force la couleur (si la feature `color` est compilée) [default: auto] " ++
    "[possible values: auto, always, never]"⟩]

def helpRow : Row := ⟨"h", "-h, --help", "Print help"⟩

def versionRow : Row := ⟨"V", "-V, --version", "Print version"⟩

def commandRows : List (String × String) := [
  ("inspect", "Afficher tables, identifiants et constantes d'un module base64"),
  ("edit", "Instancier un module template, écrire le base64 produit"),
  ("package", "Instancier le module template d'un manifeste `--dump-bytecode-as-base64`"),
  ("verify", "Vérifier que décodage puis encodage redonnent les mêmes octets"),
  ("help", "Print this message or the help of the given subcommand(s)")]

def overview : List String :=
  ["Inspecter, instancier et vérifier des modules Move templates (base64)", "",
    "Usage: movetpl [OPTIONS] <COMMAND>", "", "Commands:"] ++ table commandRows ++ ["", "Options:"] ++
    table ((sharedRows ++ [helpRow, versionRow]).map Row.columns)

def configRow (meaning : String) : Row := ⟨"c", "-c, --config <CONFIG>", meaning⟩

def outputRows : List Row := [
  ⟨"o", "-o, --output <OUTPUT>", "Fichier de sortie (stdout si omis)"⟩,
  ⟨"overwrite", "    --overwrite", "Écraser le fichier de sortie"⟩]

def ownRows (name : String) : List Row :=
  if name = "inspect" then [⟨"json", "    --json", "Sortie JSON"⟩, ⟨"summary", "    --summary", "Résumé une ligne"⟩,
    configRow "Config dont les alias nomment les constantes"]
  else if name = "edit" then configRow "Config du template (JSON)" :: outputRows
  else if name = "package" then configRow "Config du template (JSON)" ::
    ⟨"m", "-m, --module <MODULE>", "Nom du module à éditer (si le package en contient plusieurs)"⟩ :: outputRows
  else []

def needed (name : String) : String := if name = "edit" ∨ name = "package" then "--config <CONFIG> " else ""

def operandMeaning (name : String) : String :=
  if name = "package" then "Manifeste JSON (ou - pour stdin)" else "Module base64 (ou - pour stdin)"

def about (name : String) : List String :=
  let purpose := (commandRows.lookup name).getD ""
  if name = "help" then
    [purpose, "", "Usage: movetpl help [COMMAND]...", "", "Arguments:",
      "  [COMMAND]...  Print help for the subcommand(s)"]
  else
    [purpose, "", s!"Usage: movetpl {name} [OPTIONS] {needed name}[INPUT]", "", "Arguments:",
      s!"  [INPUT]  {operandMeaning name}", "", "Options:"] ++
      table ((interleave (ownRows name) sharedRows ++ [helpRow]).map Row.columns)

def text (topic : Option String) : String :=
  String.join ((match topic with
    | none => overview
    | some name => about name).map fun line => line ++ "\n")

end MoveBytecode.Help
