import TreeQuery.Tree.Id
import TreeQuery.Tree.NameTable

/-! The nodes of a tree and what they hold. -/
namespace TreeQuery

/-- A name with its namespace, as numbers of a name table. -/
structure QualifiedName where
  ns : Option NameId := none
  localName : NameId
  deriving DecidableEq, Repr

structure Attribute where
  name : QualifiedName
  value : String
  deriving DecidableEq, Repr

/-- Gives an attribute a value; a new attribute goes to the end. -/
def setAttribute (name : QualifiedName) (value : String) : List Attribute → List Attribute
  | [] => [⟨name, value⟩]
  | first :: rest =>
    if first.name = name then ⟨name, value⟩ :: rest
    else first :: setAttribute name value rest

structure Element where
  name : QualifiedName
  attributes : List Attribute := []
  deriving DecidableEq, Repr

namespace Element

/-- The value of the first attribute with this local name, in whatever namespace. -/
def get? (element : Element) (localName : NameId) : Option String :=
  (element.attributes.find? fun item => item.name.localName = localName).map Attribute.value

def set (element : Element) (name : QualifiedName) (value : String) : Element :=
  { element with attributes := setAttribute name value element.attributes }

end Element

inductive NodeContent where
  | document
  | element (element : Element)
  | text (content : String)
  | comment (content : String)
  deriving DecidableEq, Repr

structure Node where
  content : NodeContent
  parent : Option NodeId := none
  firstChild : Option NodeId := none
  lastChild : Option NodeId := none
  prevSibling : Option NodeId := none
  nextSibling : Option NodeId := none
  deriving DecidableEq, Repr

namespace Node

def document : Node := { content := .document }

def ofElement (name : QualifiedName) : Node := { content := .element { name } }

def ofText (content : String) : Node := { content := .text content }

def ofComment (content : String) : Node := { content := .comment content }

def element? (node : Node) : Option Element :=
  match node.content with
  | .element element => some element
  | _ => none

def text? (node : Node) : Option String :=
  match node.content with
  | .text content => some content
  | _ => none

def isElement (node : Node) : Bool := node.element?.isSome

def isText (node : Node) : Bool := node.text?.isSome

def isContainer (node : Node) : Bool :=
  match node.content with
  | .document | .element _ => true
  | .text _ | .comment _ => false

/-- Gives an element an attribute; another node has none. -/
def setAttribute? (node : Node) (name : QualifiedName) (value : String) : Option Node :=
  node.element?.map fun element => { node with content := .element (element.set name value) }

end Node

end TreeQuery
