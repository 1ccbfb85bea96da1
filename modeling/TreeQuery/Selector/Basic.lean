import TreeQuery.Selector.NameSet

/-! Selectors: steps joined by combinators, read from left to right.
The last step describes the wanted element.
The combinator of a step relates it to the step before. -/
namespace TreeQuery

inductive Combinator where
  | none
  | descendant
  | child
  | nextSibling
  | subsequentSibling
  deriving DecidableEq, Repr

namespace Combinator

def separator : Combinator → String
  | .none => ""
  | .descendant => " "
  | .child => " > "
  | .nextSibling => " + "
  | .subsequentSibling => " ~ "

def initial : Combinator := .none

end Combinator

/-- How an attribute value is compared with the value that a selector gives. -/
inductive AttributeOperator where
  | present
  | equals
  | word
  | segment
  | contains
  | startsWith
  | endsWith
  deriving DecidableEq, Repr

def AttributeOperator.symbol : AttributeOperator → String
  | .present => ""
  | .equals => "="
  | .word => "~="
  | .segment => "|="
  | .contains => "*="
  | .startsWith => "^="
  | .endsWith => "$="

structure AttributeSelector where
  name : String
  ns : Option String := none
  operator : AttributeOperator
  value : Option String
  deriving DecidableEq, Repr

namespace AttributeSelector

def present (name : String) : AttributeSelector :=
  { name, operator := .present, value := none }

def compare (name : String) (operator : AttributeOperator) (value : String) : AttributeSelector :=
  { name, operator, value := some value }

end AttributeSelector

/-- One compound of a selector: what it asks of a single element. -/
structure Step where
  element : Option String := none
  ns : Option String := none
  id : Option String := none
  classes : NameSet := .empty
  tests : List AttributeSelector := []
  pseudoClasses : List String := []
  pseudoElements : List String := []
  combinator : Combinator := .initial
  deriving DecidableEq

namespace Step

def any : Step := {}

/-- Asks for a tag name; the empty name and the star ask for none. -/
def withElement (step : Step) (name : String) : Step :=
  { step with element := if name = "" ∨ name = "*" then none else some name }

def ofElement (name : String) : Step := any.withElement name

def withId (step : Step) (id : String) : Step := { step with id := some id }

def withClass (step : Step) (name : String) : Step :=
  { step with classes := step.classes.insert name }

def withTest (step : Step) (test : AttributeSelector) : Step :=
  { step with tests := step.tests ++ [test] }

def withPseudoClass (step : Step) (name : String) : Step :=
  { step with pseudoClasses := step.pseudoClasses ++ [name] }

def withPseudoElement (step : Step) (name : String) : Step :=
  { step with pseudoElements := step.pseudoElements ++ [name] }

def joinedBy (step : Step) (combinator : Combinator) : Step :=
  { step with combinator }

def isUniversal (step : Step) : Bool :=
  step.element.isNone && step.id.isNone && step.classes.isEmpty && step.tests.isEmpty &&
    step.pseudoClasses.isEmpty && step.pseudoElements.isEmpty

end Step

structure Selector where
  steps : List Step
  nonempty : steps ≠ []
  deriving DecidableEq

namespace Selector

def ofSteps? (steps : List Step) : Option Selector :=
  if h : steps = [] then none else some ⟨steps, h⟩

def target (selector : Selector) : Step :=
  selector.steps.getLast selector.nonempty

end Selector

/-- Alternatives: an element satisfies the list when it satisfies one member. -/
structure SelectorList where
  members : List Selector
  deriving DecidableEq

end TreeQuery
