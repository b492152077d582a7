import MoveBytecode.Json
import MoveBytecode.Template

/-! A module as it is shown: every table of the directory it would be written with, and the contents of the parsed
ones. -/

set_option autoImplicit false

namespace MoveBytecode

structure View where
  version : Nat
  flavor : UInt8
  moduleName : Option String
  entries : List Entry
  identifiers : List String
  addresses : List String
  constants : List (Option String × Field)
  rawTables : List (TableKind × Nat)
  deriving Repr

namespace View

def ofModule (module : Module) (aliases : Aliases) : Except TemplateError View := do
  let moduleName ← module.selfName.mapError fun cause => .decode (.read cause)
  let entries ← module.entries.mapError .encode
  return {
    version := module.header.version
    flavor := module.header.flavor
    moduleName
    entries
    identifiers := module.identifiers
    addresses := module.addresses.map fun address => String.ofList address.display
    constants := aliases.labelled module.fields
    rawTables := module.directory.filterMap fun kind =>
      (module.rawTable? kind).map fun table => (kind, table.length) }

def entryJson (entry : Entry) : Json := .object [
  ("kind", .string entry.kind.viewName),
  ("offset", .ofNat entry.offset),
  ("length", .ofNat entry.length)]

def constantJson : Option String × Field → Json
  | (label, field) => .object (
    [("index", .ofNat field.index), ("name", .string field.name)] ++
    label.toList.map (fun label => ("label", .string label)) ++
    [("type_tag", .string field.ty.name), ("display_value", .string field.display)])

def rawTableJson : TableKind × Nat → Json
  | (kind, length) => .object [("kind", .string kind.viewName), ("length", .ofNat length)]

def json (view : View) : Json := .object [
  ("version", .ofNat view.version),
  ("flavor", .ofNat view.flavor.toNat),
  ("module_name", .ofOption view.moduleName),
  ("directory", .array (view.entries.map entryJson)),
  ("identifiers", .ofTexts view.identifiers),
  ("address_identifiers", .ofTexts view.addresses),
  ("constants", .array (view.constants.map constantJson)),
  ("opaque_tables", .array (view.rawTables.map rawTableJson))]

def left (width : Nat) (text : String) : String := String.ofList (Text.padRight width text.toList)

def right (width : Nat) (n : Nat) : String := String.ofList (Text.padLeft width (Text.decimal n))

def entryLine (entry : Entry) : String :=
  "  " ++ left 22 entry.kind.name ++ " @" ++ left 6 (toString entry.offset) ++ " " ++ right 6 entry.length ++ " B"

def numberedLine (index : Nat) (text : String) : String := "  [" ++ right 3 index ++ "] " ++ text

def constantLine : Option String × Field → String
  | (label, field) =>
    let labelled := match label with
      | some label => s!"{field.name} ({label})"
      | none => field.name
    s!"  {labelled}: {field.ty.name} = {field.display}"

def nameOrMark (name? : Option String) : String := name?.getD "?"

def lines (view : View) : List String :=
  [s!"module {nameOrMark view.moduleName} (v{view.version})", "tables:"] ++
    view.entries.map entryLine ++
    s!"identifiers ({view.identifiers.length}):" :: view.identifiers.mapIdx numberedLine ++
    s!"addresses ({view.addresses.length}):" :: view.addresses.mapIdx numberedLine ++
    s!"constants ({view.constants.length}):" :: view.constants.map constantLine

def listing (view : View) : String := String.join (view.lines.map fun line => line ++ "\n")

end View

end MoveBytecode
