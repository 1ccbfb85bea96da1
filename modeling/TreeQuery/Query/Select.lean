import TreeQuery.Query.Session

/-! Single queries from the document node, alone or on a pool of threads.
The pool judges the candidates, and it answers several texts at a time; how it shares this out is
its own affair. Reading, narrowing and merging stay in one thread. -/
namespace TreeQuery

def select (tree : Tree) (text : String) : Except SelectorError NodeSet :=
  ((Session.ofRoot tree).find text).map Session.found

/-- Threads that share out the items of a list. -/
structure Pool where
  filter : {α : Type} → (α → Bool) → List α → List α
  map : {α β : Type} → (α → β) → List α → List β

namespace Pool

/-- A task for each item. -/
def tasks : Pool where
  filter keep items :=
    let judged := items.map fun item => (item, Task.spawn fun () => keep item)
    (judged.filter fun entry => entry.2.get).map Prod.fst
  map answer items :=
    let asked := items.map fun item => Task.spawn fun () => answer item
    asked.map Task.get

def narrow (pool : Pool) (setting : Setting) (roots : List NodeId) (list : SelectorList) :
    NodeSet :=
  list.members.foldl
    (fun found member =>
      found.extend
        (pool.filter (setting.selectorHolds false member) (setting.candidates roots member)))
    .empty

def select (pool : Pool) (setting : Setting) (text : String) : Except SelectorError NodeSet :=
  match SelectorList.parse text with
  | .error e => .error e
  | .ok list =>
    match list.supported with
    | .error e => .error e
    | .ok () => .ok (pool.narrow setting [.root] list)

def selectMany (pool : Pool) (tree : Tree) (options : Options) (texts : List String) :
    List (Except SelectorError NodeSet) :=
  pool.map (fun text => pool.select { tree, options } text) texts

end Pool

def selectConcurrently (setting : Setting) (text : String) : Except SelectorError NodeSet :=
  Pool.tasks.select setting text

def selectMany (tree : Tree) (options : Options) (texts : List String) :
    List (Except SelectorError NodeSet) :=
  Pool.tasks.selectMany tree options texts

end TreeQuery
