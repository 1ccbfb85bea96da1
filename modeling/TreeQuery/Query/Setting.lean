import TreeQuery.Tree.Walk

/-! What an evaluation depends on beside the selector: the tree, the options, the pseudo rules. -/
namespace TreeQuery

/-- Whether combinators keep their meaning or are all taken for descendant combinators. -/
inductive CombinatorReading where
  | asWritten
  | asDescendant
  deriving DecidableEq, Repr

structure Options where
  combinators : CombinatorReading := .asWritten
  ignoreTagCase : Bool := false
  deriving DecidableEq, Repr

/-- The answers to pseudo-classes and pseudo-elements, for each node of a tree. -/
structure PseudoRules where
  classHolds : Tree → NodeId → String → Bool
  elementHolds : Tree → NodeId → String → Bool

namespace PseudoRules

def always : PseudoRules := ⟨fun _ _ _ => true, fun _ _ _ => true⟩

def denying (classes elements : List String) : PseudoRules :=
  ⟨fun _ _ name => !classes.contains name, fun _ _ name => !elements.contains name⟩

def firstOfType (tree : Tree) (id : NodeId) : Bool :=
  (tree.elementsBefore id).all fun other => tree.tagName? other != tree.tagName? id

def lastOfType (tree : Tree) (id : NodeId) : Bool :=
  (tree.elementsAfter id).all fun other => tree.tagName? other != tree.tagName? id

def structuralClass (tree : Tree) (id : NodeId) : String → Bool
  | "root" => !(tree.parent? id).any tree.isElement
  | "empty" => (tree.firstElementChild? id).isNone
  | "first-child" => (tree.prevElement? id).isNone
  | "last-child" => (tree.nextElement? id).isNone
  | "only-child" => (tree.prevElement? id).isNone && (tree.nextElement? id).isNone
  | "first-of-type" => firstOfType tree id
  | "last-of-type" => lastOfType tree id
  | "only-of-type" => firstOfType tree id && lastOfType tree id
  | _ => true

/-- Pseudo-classes about the place in the tree; all others hold, as do pseudo-elements. -/
def structural : PseudoRules := ⟨structuralClass, fun _ _ _ => true⟩

end PseudoRules

structure Setting where
  tree : Tree
  options : Options := {}
  pseudo : PseudoRules := .always

end TreeQuery
