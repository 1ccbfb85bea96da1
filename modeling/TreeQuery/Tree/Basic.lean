import TreeQuery.Tree.Node

/-! Trees of nodes that lie in one array and link to one another by their places.
The document node is at place 0. A node that was never appended has no parent. -/
namespace TreeQuery

structure Tree where
  nodes : Array Node
  names : NameTable

namespace Tree

def empty : Tree := ⟨#[.document], .initial⟩

def size (tree : Tree) : Nat := tree.nodes.size

def isEmpty (tree : Tree) : Bool := tree.nodes.isEmpty

def node? (tree : Tree) (id : NodeId) : Option Node := tree.nodes[id.index]?

def contains (tree : Tree) (id : NodeId) : Bool := (tree.node? id).isSome

def element? (tree : Tree) (id : NodeId) : Option Element := (tree.node? id).bind Node.element?

def isElement (tree : Tree) (id : NodeId) : Bool := (tree.element? id).isSome

def resolve (tree : Tree) (name : NameId) : String := tree.names.get name

def tagName? (tree : Tree) (id : NodeId) : Option String :=
  (tree.element? id).map fun element => tree.resolve element.name.localName

def namespace? (tree : Tree) (id : NodeId) : Option String :=
  (tree.element? id).bind fun element => element.name.ns.map tree.resolve

/-- The value of an attribute; a name that the tree does not know belongs to none. -/
def attribute? (tree : Tree) (id : NodeId) (name : String) : Option String :=
  (tree.names.lookup name).bind fun name => (tree.element? id).bind fun element => element.get? name

def parent? (tree : Tree) (id : NodeId) : Option NodeId := (tree.node? id).bind Node.parent

def firstChild? (tree : Tree) (id : NodeId) : Option NodeId := (tree.node? id).bind Node.firstChild

def lastChild? (tree : Tree) (id : NodeId) : Option NodeId := (tree.node? id).bind Node.lastChild

def nextSibling? (tree : Tree) (id : NodeId) : Option NodeId :=
  (tree.node? id).bind Node.nextSibling

def prevSibling? (tree : Tree) (id : NodeId) : Option NodeId :=
  (tree.node? id).bind Node.prevSibling

end Tree

end TreeQuery
