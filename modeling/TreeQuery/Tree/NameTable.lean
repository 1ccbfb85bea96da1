import Std.Data.HashMap

/-! A table that gives each name a number and keeps each name once.
All names lie behind one another in one buffer; an entry says where. -/
namespace TreeQuery

structure NameId where
  index : Nat
  deriving DecidableEq, Hashable, Repr

structure NameEntry where
  start : Nat
  size : Nat
  deriving DecidableEq, Repr

structure NameTable where
  buffer : String := ""
  entries : Array NameEntry := #[]
  numbers : Std.HashMap String Nat := {}

/-- The text between two byte positions; nothing if one of them splits a character. -/
def sliceBytes (buffer : String) (start size : Nat) : String :=
  if h : (String.Pos.Raw.mk start).IsValid buffer ∧
      (String.Pos.Raw.mk (start + size)).IsValid buffer then
    String.extract (buffer.pos _ h.1) (buffer.pos _ h.2)
  else ""

namespace NameTable

def size (table : NameTable) : Nat := table.entries.size

def isEmpty (table : NameTable) : Bool := table.entries.isEmpty

def lookup (table : NameTable) (name : String) : Option NameId :=
  table.numbers[name]?.map NameId.mk

/-- The name of a number; a number not given out has the empty name. -/
def get (table : NameTable) (id : NameId) : String :=
  match table.entries[id.index]? with
  | some entry => sliceBytes table.buffer entry.start entry.size
  | none => ""

/-- The number of a name, which is a new one if the table lacks the name. -/
def intern (table : NameTable) (name : String) : NameId × NameTable :=
  match table.lookup name with
  | some id => (id, table)
  | none =>
    (⟨table.size⟩,
      { buffer := table.buffer ++ name
        entries := table.entries.push ⟨table.buffer.utf8ByteSize, name.utf8ByteSize⟩
        numbers := table.numbers.insert name table.size })

/-- The empty name, which has number 0, and the attribute names asked for most. -/
def commonNames : List String :=
  ["", "id", "class", "name", "type", "lang", "href"]

def internAll (table : NameTable) (names : List String) : NameTable :=
  names.foldl (fun table name => (table.intern name).2) table

def initial : NameTable := internAll {} commonNames

end NameTable

def NameId.emptyName : NameId := ⟨0⟩

end TreeQuery
