import TreeQuery.Tree.Basic

/-! Walks along the links of a tree.
A walk is bounded by the number of nodes; one that never meets a node twice is not cut short.
Walks among elements pass over all other nodes. -/
namespace TreeQuery

/-- The places that a link leads to one after another, at most `bound` of them. -/
def follow (next : NodeId → Option NodeId) : (bound : Nat) → Option NodeId → List NodeId
  | 0, _ => []
  | _ + 1, none => []
  | bound + 1, some id => id :: follow next bound (next id)

/-- The first of the places that a link leads to which is wanted. -/
def seek (next : NodeId → Option NodeId) (wanted : NodeId → Bool) :
    (bound : Nat) → Option NodeId → Option NodeId
  | 0, _ => none
  | _ + 1, none => none
  | bound + 1, some id => if wanted id then some id else seek next wanted bound (next id)

theorem seek_eq_find? (next : NodeId → Option NodeId) (wanted : NodeId → Bool) (bound : Nat)
    (start : Option NodeId) :
    seek next wanted bound start = (follow next bound start).find? wanted := by
  fun_induction seek next wanted bound start <;> simp_all [follow]

namespace Tree

def children (tree : Tree) (id : NodeId) : List NodeId :=
  follow tree.nextSibling? tree.size (tree.firstChild? id)

def ancestors (tree : Tree) (id : NodeId) : List NodeId :=
  follow tree.parent? tree.size (tree.parent? id)

def elementChildren (tree : Tree) (id : NodeId) : List NodeId :=
  (tree.children id).filter tree.isElement

def firstElementChild? (tree : Tree) (id : NodeId) : Option NodeId :=
  seek tree.nextSibling? tree.isElement tree.size (tree.firstChild? id)

def nextElement? (tree : Tree) (id : NodeId) : Option NodeId :=
  seek tree.nextSibling? tree.isElement tree.size (tree.nextSibling? id)

def prevElement? (tree : Tree) (id : NodeId) : Option NodeId :=
  seek tree.prevSibling? tree.isElement tree.size (tree.prevSibling? id)

/-- The element children met by going from one element to the next. -/
def elementChain (tree : Tree) (id : NodeId) : List NodeId :=
  follow tree.nextElement? tree.size (tree.firstElementChild? id)

def elementsAfter (tree : Tree) (id : NodeId) : List NodeId :=
  follow tree.nextElement? tree.size (tree.nextElement? id)

/-- The nearest comes first. -/
def elementsBefore (tree : Tree) (id : NodeId) : List NodeId :=
  follow tree.prevElement? tree.size (tree.prevElement? id)

/-- The element after `id` and all below it, inside `scope`: an element that follows `id` or,
where none does, one that follows an ancestor. -/
def elementPast? (tree : Tree) (scope : NodeId) : (bound : Nat) → NodeId → Option NodeId
  | 0, _ => none
  | bound + 1, id =>
    if id = scope then none
    else match tree.nextElement? id, tree.parent? id with
      | some next, _ => some next
      | none, some parent => tree.elementPast? scope bound parent
      | none, none => none

/-- The element after `id` in document order, inside `scope`. -/
def successor? (tree : Tree) (scope id : NodeId) : Option NodeId :=
  match tree.firstElementChild? id with
  | some child => some child
  | none => tree.elementPast? scope tree.size id

def descendants (tree : Tree) (scope : NodeId) : List NodeId :=
  follow (tree.successor? scope) tree.size (tree.firstElementChild? scope)

/-- The text below a node, down to `depth` levels. -/
def textBelow (tree : Tree) : (depth : Nat) → NodeId → String
  | 0, _ => ""
  | depth + 1, id =>
    String.join ((tree.children id).map fun child =>
      match (tree.node? child).bind Node.text? with
      | some content => content
      | none => tree.textBelow depth child)

def textContent (tree : Tree) (id : NodeId) : String :=
  tree.textBelow tree.size id

end Tree

end TreeQuery
