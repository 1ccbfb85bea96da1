import TreeQuery.Selector.Basic

/-! Selector lists assembled from events, one part of a selector at a time.
A combinator ends the current step and joins the step after it; a comma ends the whole member. -/
namespace TreeQuery

inductive Event where
  | element (name : String)
  | id (name : String)
  | className (name : String)
  | test (test : AttributeSelector)
  | pseudoClass (name : String)
  | pseudoElement (name : String)
  | combinator (combinator : Combinator)
  | nextSelector
  deriving DecidableEq, Repr

/-- A list in the making: finished members, finished steps of the current member, its current step,
and the combinator that will join the current step. -/
structure Draft where
  members : Array Selector := #[]
  steps : Array Step := #[]
  current : Step := .any
  pending : Combinator := .initial

namespace Draft

def closeStep (draft : Draft) : Draft :=
  { draft with
    steps := draft.steps.push (draft.current.joinedBy draft.pending)
    current := .any
    pending := .initial }

def closeMember (draft : Draft) : Draft :=
  { draft with
    members := match Selector.ofSteps? draft.steps.toList with
      | some selector => draft.members.push selector
      | none => draft.members
    steps := #[]
    pending := .initial }

def next (draft : Draft) : Event → Draft
  | .element name => { draft with current := draft.current.withElement name }
  | .id name => { draft with current := draft.current.withId name }
  | .className name => { draft with current := draft.current.withClass name }
  | .test test => { draft with current := draft.current.withTest test }
  | .pseudoClass name => { draft with current := draft.current.withPseudoClass name }
  | .pseudoElement name => { draft with current := draft.current.withPseudoElement name }
  | .combinator combinator => { draft.closeStep with pending := combinator }
  | .nextSelector => draft.closeStep.closeMember

def finish (draft : Draft) : SelectorList :=
  ⟨(draft.next .nextSelector).members.toList⟩

end Draft

def SelectorList.ofEvents (events : List Event) : SelectorList :=
  (events.foldl Draft.next {}).finish

end TreeQuery
