import TreeQuery.Selector.Basic
import TreeQuery.Text.Name

/-! The canonical text of a selector.
Reading it back gives the selector again when every part of it can be written. -/
namespace TreeQuery

/-- A name after its first character, every other character escaped. -/
def writeNameRest : List Char → List Char
  | [] => []
  | c :: rest => if isNameChar c then c :: writeNameRest rest else '\\' :: c :: writeNameRest rest

/-- A name; a digit that stands first is escaped too. -/
def writeName : List Char → List Char
  | [] => []
  | c :: rest =>
    if isNameChar c && !c.isDigit then c :: writeNameRest rest else '\\' :: c :: writeNameRest rest

def writeQuotedRest : List Char → List Char
  | [] => ['"']
  | c :: rest =>
    if c = '"' ∨ c = '\\' then '\\' :: c :: writeQuotedRest rest else c :: writeQuotedRest rest

def writeQuoted (text : List Char) : List Char :=
  '"' :: writeQuotedRest text

def AttributeSelector.write (test : AttributeSelector) : List Char :=
  '[' :: writeName test.name.toList ++
    (match test.value with
      | none => []
      | some value => test.operator.symbol.toList ++ writeQuoted value.toList) ++ [']']

namespace Step

/-- The star is written only where nothing else is. -/
def writeElement (step : Step) : List Char :=
  match step.element with
  | some name => writeName name.toList
  | none => if step.isUniversal then ['*'] else []

def writeId (step : Step) : List Char :=
  match step.id with
  | some id => '#' :: writeName id.toList
  | none => []

def write (step : Step) : List Char :=
  step.writeElement ++ step.writeId ++
    step.classes.names.flatMap (fun name => '.' :: writeName name.toList) ++
    step.tests.flatMap AttributeSelector.write ++
    step.pseudoClasses.flatMap (fun name => ':' :: writeName name.toList) ++
    step.pseudoElements.flatMap (fun name => ':' :: ':' :: writeName name.toList)

end Step

def Step.writeJoined (step : Step) : List Char :=
  step.combinator.separator.toList ++ step.write

/-- The combinator of the first step is not written. -/
def writeSteps : List Step → List Char
  | [] => []
  | first :: rest => first.write ++ rest.flatMap Step.writeJoined

def Selector.write (selector : Selector) : List Char :=
  writeSteps selector.steps

def writeMembers : List Selector → List Char
  | [] => []
  | first :: rest => first.write ++ rest.flatMap fun member => ',' :: ' ' :: member.write

def SelectorList.write (list : SelectorList) : List Char :=
  writeMembers list.members

def AttributeSelector.text (test : AttributeSelector) : String := .ofList test.write

def Step.text (step : Step) : String := .ofList step.write

def Selector.text (selector : Selector) : String := .ofList selector.write

def SelectorList.text (list : SelectorList) : String := .ofList list.write

end TreeQuery
