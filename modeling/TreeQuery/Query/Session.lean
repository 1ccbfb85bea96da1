import TreeQuery.Query.ArrivalSet
import TreeQuery.Query.Match
import TreeQuery.Selector.Parse
import TreeQuery.Selector.Support

/-! Queries that narrow a set of nodes step by step.
The first search goes from the start nodes to the elements below them; each later one filters. -/
namespace TreeQuery

abbrev NodeSet := ArrivalSet NodeId

structure Session where
  setting : Setting
  found : NodeSet
  started : Bool := false
  last : Option SelectorList := none

/-- What a request answers, and the session that it leaves. -/
abbrev Asked (α : Type) := Except SelectorError α × Session

/-- The session that is left, unless the request was refused. -/
def Asked.next (asked : Asked Unit) : Except SelectorError Session :=
  asked.1.map fun () => asked.2

structure ForeignNode where
  id : NodeId
  deriving DecidableEq, Repr

def ForeignNode.message (error : ForeignNode) : String :=
  s!"Type mismatch: node {error.id.text} does not belong to this tree"

/-- The elements below the roots that satisfy a member of the list, member by member. -/
def Setting.narrow (setting : Setting) (roots : List NodeId) (list : SelectorList) : NodeSet :=
  list.members.foldl
    (fun found member =>
      found.extend ((setting.candidates roots member).filter (setting.selectorHolds false member)))
    .empty

namespace Session

def ofRoot (tree : Tree) : Session := ⟨{ tree }, .single .root, false, none⟩

/-- Starts from given nodes, all of which have to be nodes of the tree. -/
def ofNodes (tree : Tree) (ids : List NodeId) : Except ForeignNode Session :=
  match ids.find? fun id => !tree.contains id with
  | some id => .error ⟨id⟩
  | none => .ok ⟨{ tree }, .ofList ids, false, none⟩

def withOptions (session : Session) (options : Options) : Session :=
  { session with setting := { session.setting with options } }

def withPseudo (session : Session) (pseudo : PseudoRules) : Session :=
  { session with setting := { session.setting with pseudo } }

/-- A list that cannot be evaluated is refused before anything changes. -/
def askList (session : Session) (list : SelectorList) : Asked Unit :=
  match list.supported with
  | .error e => (.error e, session)
  | .ok () =>
    let found :=
      if session.started then
        .ofList (session.found.toList.filter (session.setting.listHolds list))
      else session.setting.narrow session.found.toList list
    (.ok (), { session with found, started := true, last := some list })

def ask (session : Session) (text : String) : Asked Unit :=
  match SelectorList.parse text with
  | .error e => (.error e, session)
  | .ok list => session.askList list

def findList (session : Session) (list : SelectorList) : Except SelectorError Session :=
  (session.askList list).next

def find (session : Session) (text : String) : Except SelectorError Session :=
  (session.ask text).next

theorem findList_eq (session : Session) (list : SelectorList) : session.findList list =
    match list.supported with
    | .error e => .error e
    | .ok () => .ok { session with
        found :=
          if session.started then
            .ofList (session.found.toList.filter (session.setting.listHolds list))
          else session.setting.narrow session.found.toList list
        started := true
        last := some list } := by
  rw [findList, askList]
  cases list.supported <;> rfl

theorem find_eq (session : Session) (text : String) : session.find text =
    match SelectorList.parse text with
    | .error e => .error e
    | .ok list => session.findList list := by
  rw [find, ask]
  cases SelectorList.parse text <;> rfl

/-- A new session below the nodes found so far, which stay as they are. -/
def askWithin (session : Session) (text : String) : Asked Session :=
  let inner := { session with started := false, last := none }
  (inner.find text, session)

def within (session : Session) (text : String) : Except SelectorError Session :=
  (session.askWithin text).1

def reset (session : Session) : Session :=
  { session with found := .single .root, started := false, last := none }

end Session

end TreeQuery
