import Std.Data.HashSet
import TreeQuery.Query.Setting
import TreeQuery.Selector.Attribute

/-! When an element satisfies a selector.
The element is held against the last step; then the steps to the left are sought outward, among
ancestors or earlier siblings. A search notes what it has failed at and never seeks it again. -/
namespace TreeQuery

/-- Equality up to the case of ASCII letters. -/
def equalFoldingCase (front back : String) : Bool :=
  front.toList.map Char.toLower == back.toList.map Char.toLower

/-- What a search has learned: the pairs of a step count and a node from which the steps to the left
cannot be found. The walks made so far are listed too, the latest first. -/
structure Search where
  failed : Std.HashSet (Nat × NodeId) := {}
  walks : List (Nat × NodeId) := []

def tryEach (attempt : NodeId → Search → Bool × Search) : List NodeId → Search → Bool × Search
  | [], search => (false, search)
  | id :: rest, search =>
    match attempt id search with
    | (true, search) => (true, search)
    | (false, search) => tryEach attempt rest search

namespace Setting

def tagHolds (setting : Setting) (wanted tag : String) : Bool :=
  if setting.options.ignoreTagCase then equalFoldingCase wanted tag else wanted == tag

def idHolds (setting : Setting) (step : Step) (id : NodeId) : Bool :=
  step.id.all fun wanted => setting.tree.attribute? id "id" == some wanted

/-- Where no class is wanted the `class` attribute may be absent. -/
def classesHold (setting : Setting) (step : Step) (id : NodeId) : Bool :=
  step.classes.isEmpty ||
    (setting.tree.attribute? id "class").any fun value =>
      let words := classWords value
      step.classes.names.all words.contains

def testsHold (setting : Setting) (step : Step) (id : NodeId) : Bool :=
  step.tests.all fun test => test.holds (setting.tree.attribute? id test.name)

def pseudosHold (setting : Setting) (step : Step) (id : NodeId) : Bool :=
  step.pseudoClasses.all (setting.pseudo.classHolds setting.tree id) &&
    step.pseudoElements.all (setting.pseudo.elementHolds setting.tree id)

/-- Whether a node is an element with all that the step asks for.
The tag may be left out, where it is known to be right. -/
def stepHolds (setting : Setting) (checkTag : Bool) (step : Step) (id : NodeId) : Bool :=
  match setting.tree.tagName? id with
  | none => false
  | some tag =>
    (!checkTag || step.element.all fun wanted => setting.tagHolds wanted tag) &&
      setting.idHolds step id && setting.classesHold step id && setting.testsHold step id &&
      setting.pseudosHold step id

/-- The nodes where the step to the left of `id` may be, the nearest first. -/
def related (setting : Setting) (combinator : Combinator) (id : NodeId) : List NodeId :=
  match setting.options.combinators, combinator with
  | .asDescendant, _ | .asWritten, .none | .asWritten, .descendant => setting.tree.ancestors id
  | .asWritten, .child => (setting.tree.parent? id).toList
  | .asWritten, .nextSibling => (setting.tree.prevElement? id).toList
  | .asWritten, .subsequentSibling => setting.tree.elementsBefore id

/-- Whether the steps to the left, the nearest first, can be found from a node that is related to
them by `combinator`. -/
def leftHolds (setting : Setting) :
    (left : List Step) → Combinator → NodeId → Search → Bool × Search
  | [], _, _, search => (true, search)
  | step :: left, combinator, id, search =>
    let key := (left.length + 1, id)
    if search.failed.contains key then (false, search)
    else
      let attempt := fun candidate search =>
        if setting.stepHolds true step candidate then
          leftHolds setting left step.combinator candidate search
        else (false, search)
      match tryEach attempt (setting.related combinator id)
          { search with walks := key :: search.walks } with
      | (true, search) => (true, search)
      | (false, search) => (false, { search with failed := search.failed.insert key })

def searchFrom (setting : Setting) (checkTag : Bool) (selector : Selector) (id : NodeId) :
    Bool × Search :=
  match selector.steps.reverse with
  | [] => (false, {})
  | target :: left =>
    if setting.stepHolds checkTag target id then setting.leftHolds left target.combinator id {}
    else (false, {})

def selectorHolds (setting : Setting) (checkTag : Bool) (selector : Selector)
    (id : NodeId) : Bool :=
  (setting.searchFrom checkTag selector id).1

def listHolds (setting : Setting) (list : SelectorList) (id : NodeId) : Bool :=
  list.members.any fun member => setting.selectorHolds true member id

/-- The elements below the roots that have the tag which the selector wants. -/
def candidates (setting : Setting) (roots : List NodeId) (selector : Selector) : List NodeId :=
  roots.flatMap fun root => (setting.tree.descendants root).filter fun id =>
    (setting.tree.tagName? id).any fun tag =>
      selector.target.element.all fun wanted => setting.tagHolds wanted tag

end Setting

end TreeQuery
