/-! Handles of the nodes of a tree: places in its array of nodes. -/
namespace TreeQuery

structure NodeId where
  index : Nat
  deriving DecidableEq, Hashable, Repr

namespace NodeId

/-- The number of places that a tree can have. -/
def limit : Nat := UInt32.size - 1

def root : NodeId := ⟨0⟩

def missing : NodeId := ⟨limit⟩

def ofIndex? (index : Nat) : Option NodeId :=
  if index < limit then some ⟨index⟩ else none

def isValid (id : NodeId) : Bool := id != missing

def text (id : NodeId) : String := s!"NodeId({id.index})"

end NodeId

end TreeQuery
