import TreeQuery.Tree.Walk

/-! How trees are built.
A step that fails keeps what it did before the failure: names it gave numbers to, a node it made. -/
namespace TreeQuery

inductive HierarchyFault where
  | documentAsChild
  | alreadyAppended
  | ownAncestor
  deriving DecidableEq, Repr

def HierarchyFault.message : HierarchyFault → String
  | .documentAsChild => "the document node cannot be a child"
  | .alreadyAppended => "node already has a parent"
  | .ownAncestor => "node would become its own ancestor"

/-- What a step does with a node that is of the wrong kind for it. -/
inductive NodeUse where
  | appendTo
  | setAttribute
  deriving DecidableEq, Repr

def NodeUse.text : NodeUse → String
  | .appendTo => "append_child parent"
  | .setAttribute => "set_attribute"

inductive TreeError where
  | notFound (id : NodeId)
  | hierarchy (fault : HierarchyFault)
  | wrongKind (use : NodeUse)
  | full (count : Nat)
  deriving DecidableEq, Repr

def TreeError.message : TreeError → String
  | .notFound id => s!"Node not found: {id.text}"
  | .hierarchy fault => s!"Hierarchy request error: {fault.message}"
  | .wrongKind use => s!"Invalid node type for {use.text}"
  | .full count => s!"Node arena is full ({count} nodes)"

/-- The answer of a step, and the tree that it leaves. -/
abbrev Built (α : Type) := Except TreeError α × Tree

namespace Tree

/-- Changes a node; a handle without a node changes nothing. -/
def modify (tree : Tree) (id : NodeId) (change : Node → Node) : Tree :=
  { tree with nodes := tree.nodes.modify id.index change }

@[simp] theorem size_modify (tree : Tree) (id : NodeId) (change : Node → Node) :
    (tree.modify id change).size = tree.size :=
  Array.size_modify

theorem node?_modify (tree : Tree) (id other : NodeId) (change : Node → Node) :
    (tree.modify id change).node? other =
      if id = other then (tree.node? other).map change else tree.node? other := by
  cases id
  cases other
  simp only [modify, node?, Array.getElem?_modify, NodeId.mk.injEq]

def intern (tree : Tree) (name : String) : NameId × Tree :=
  let (id, names) := tree.names.intern name
  (id, { tree with names })

/-- Puts a node without links at the end of the array. -/
def create (tree : Tree) (node : Node) : Built NodeId :=
  match NodeId.ofIndex? tree.size with
  | some id => (.ok id, { tree with nodes := tree.nodes.push node })
  | none => (.error (.full tree.size), tree)

def createElement (tree : Tree) (name : String) : Built NodeId :=
  let (localName, tree) := tree.intern name
  tree.create (.ofElement { localName })

def createElementIn (tree : Tree) (ns name : String) : Built NodeId :=
  let (ns, tree) := tree.intern ns
  let (localName, tree) := tree.intern name
  tree.create (.ofElement { ns := some ns, localName })

def createText (tree : Tree) (content : String) : Built NodeId :=
  tree.create (.ofText content)

def createComment (tree : Tree) (content : String) : Built NodeId :=
  tree.create (.ofComment content)

/-- Whether a node may become the last child of another. -/
def checkAppend (tree : Tree) (parent child : NodeId) : Except TreeError Unit :=
  match tree.node? parent, tree.node? child with
  | none, _ => .error (.notFound parent)
  | some parentNode, childNode? =>
    if !parentNode.isContainer then .error (.wrongKind .appendTo)
    else match childNode? with
      | none => .error (.notFound child)
      | some childNode =>
        if child = .root then .error (.hierarchy .documentAsChild)
        else if childNode.parent.isSome then .error (.hierarchy .alreadyAppended)
        else if child ∈ parent :: tree.ancestors parent then .error (.hierarchy .ownAncestor)
        else .ok ()

/-- Links a node to its parent and to the last child before it. -/
def link (tree : Tree) (parent child : NodeId) : Tree :=
  let last := tree.lastChild? parent
  let tree := tree.modify child fun node => { node with parent := some parent, prevSibling := last }
  let tree := match last with
    | some last => tree.modify last fun node => { node with nextSibling := some child }
    | none => tree.modify parent fun node => { node with firstChild := some child }
  tree.modify parent fun node => { node with lastChild := some child }

def append (tree : Tree) (parent child : NodeId) : Built NodeId :=
  match tree.checkAppend parent child with
  | .error e => (.error e, tree)
  | .ok () => (.ok child, tree.link parent child)

/-- Gives an element an attribute whose name has numbers already. -/
def setQualified (tree : Tree) (id : NodeId) (name : QualifiedName) (value : String) :
    Built Unit :=
  match tree.node? id with
  | none => (.error (.notFound id), tree)
  | some node =>
    match node.setAttribute? name value with
    | none => (.error (.wrongKind .setAttribute), tree)
    | some node => (.ok (), tree.modify id fun _ => node)

def setAttribute (tree : Tree) (id : NodeId) (name value : String) : Built Unit :=
  let (localName, tree) := tree.intern name
  tree.setQualified id { localName } value

/-- Stops at the first attribute that cannot be set. -/
def setAttributes (tree : Tree) (id : NodeId) : List (String × String) → Built Unit
  | [] => (.ok (), tree)
  | (name, value) :: rest =>
    match tree.setAttribute id name value with
    | (.error e, tree) => (.error e, tree)
    | (.ok (), tree) => tree.setAttributes id rest

def appendElement (tree : Tree) (parent : NodeId) (name : String)
    (attributes : List (String × String)) : Built NodeId :=
  match tree.createElement name with
  | (.error e, tree) => (.error e, tree)
  | (.ok id, tree) =>
    match tree.setAttributes id attributes with
    | (.error e, tree) => (.error e, tree)
    | (.ok (), tree) => tree.append parent id

def appendText (tree : Tree) (parent : NodeId) (content : String) : Built NodeId :=
  match tree.createText content with
  | (.error e, tree) => (.error e, tree)
  | (.ok id, tree) => tree.append parent id

end Tree

inductive Growth where
  | createElement (name : String)
  | createElementIn (ns name : String)
  | createText (content : String)
  | createComment (content : String)
  | append (parent child : NodeId)
  | appendElement (parent : NodeId) (name : String) (attributes : List (String × String))
  | appendText (parent : NodeId) (content : String)
  | setAttribute (id : NodeId) (name value : String)
  deriving DecidableEq, Repr

namespace Growth

/-- The answer is the node that the step makes or appends. -/
def apply (tree : Tree) : Growth → Built (Option NodeId)
  | .createElement name => answer (tree.createElement name)
  | .createElementIn ns name => answer (tree.createElementIn ns name)
  | .createText content => answer (tree.createText content)
  | .createComment content => answer (tree.createComment content)
  | .append parent child => answer (tree.append parent child)
  | .appendElement parent name attributes => answer (tree.appendElement parent name attributes)
  | .appendText parent content => answer (tree.appendText parent content)
  | .setAttribute id name value =>
    let (result, tree) := tree.setAttribute id name value
    (result.map fun () => none, tree)
where
  answer (built : Built NodeId) : Built (Option NodeId) :=
    (built.1.map some, built.2)

/-- The tree after a step, whether or not it failed. -/
def next (tree : Tree) (step : Growth) : Tree := (step.apply tree).2

end Growth

namespace Tree

def grow (steps : List Growth) : Tree := steps.foldl Growth.next .empty

def Reachable (tree : Tree) : Prop := ∃ steps, grow steps = tree

end Tree

end TreeQuery
