import MoveBytecode.DecodeError
import MoveBytecode.Module.Header

/-! The frame of a module: its header, the directory of its tables, the bytes of all tables in one area, and the
index of its own handle. Offsets count from the start of the area, which the tables cover without gap or overlap. -/

set_option autoImplicit false

namespace MoveBytecode

structure Entry where
  kind : TableKind
  offset : Nat
  length : Nat
  deriving DecidableEq, Repr

def Entry.finish (entry : Entry) : Nat := entry.offset + entry.length

structure Container where
  header : Header
  entries : List Entry
  area : Bytes
  selfHandle : Option Nat
  deriving DecidableEq, Repr

namespace Container

def magic : Bytes := [0xA1, 0x1C, 0xEB, 0x0B]

def readHeader : Reader DecodeError Header := do
  let found ← (Reader.bytes 4).mapError .read
  if found ≠ magic then throw (.badMagic found)
  let word ← (Reader.littleEndian 4).mapError .read
  Reader.ofOption (.unsupportedVersion (Header.versionOf word)) (Header.ofWord? word)

def readEntry (seen : List TableKind) : Reader DecodeError Entry := do
  let byte ← Reader.byte.mapError .read
  let kind ← Reader.ofOption (.unknownTableKind byte) (TableKind.ofByte? byte)
  if kind ∈ seen then throw (.duplicateTable kind)
  let offset ← Reader.uleb32.mapError .read
  let length ← Reader.uleb32.mapError .read
  return ⟨kind, offset, length⟩

/-- So many entries, of kinds that differ from each other and from those seen before. -/
def readEntries : Nat → List TableKind → Reader DecodeError (List Entry)
  | 0, _ => return []
  | count + 1, seen => do
    let entry ← readEntry seen
    return entry :: (← readEntries count (entry.kind :: seen))

def insertByOffset (entry : Entry) : List Entry → List Entry
  | [] => [entry]
  | first :: rest =>
    if entry.offset ≤ first.offset then entry :: first :: rest else first :: insertByOffset entry rest

/-- The entries by offset; those of equal offset stay in the order of the directory. -/
def byOffset (entries : List Entry) : List Entry := entries.foldr insertByOffset []

/-- Where the last table ends, if each table starts where the one before it ends. -/
def tiledEnd : Nat → List Entry → Except DecodeError Nat
  | reached, [] => .ok reached
  | reached, entry :: rest =>
    if entry.offset = reached then tiledEnd entry.finish rest
    else .error (.gap (.misplaced entry.kind entry.offset reached))

def areaLength (entries : List Entry) : Except DecodeError Nat := tiledEnd 0 (byOffset entries)

def read : Reader DecodeError Container := do
  let header ← readHeader
  let count ← Reader.uleb32.mapError .read
  let entries ← readEntries count []
  let length ← Reader.ofExcept id (areaLength entries)
  let area ← (Reader.bytes length).mapError .read
  let selfHandle ← if header.hasSelfHandle then some <$> Reader.uleb32.mapError .read else pure none
  let remaining := (← get).rest.length
  if remaining ≠ 0 then throw (.gap (.afterModule remaining))
  return ⟨header, entries, area, selfHandle⟩

def ofBytes (bytes : Bytes) : Except DecodeError Container := read.value bytes

def slice (container : Container) (entry : Entry) : Bytes :=
  (container.area.drop entry.offset).take entry.length

end Container

end MoveBytecode
