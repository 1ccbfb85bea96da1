import TreeQuery.Selector.Basic
import TreeQuery.Stored.Value

/-! The stored form of selector lists: a record for each part, a list for each sequence or set,
null for what is absent, a name for each operator and combinator.
Two more forms are read but never written: a list of what the fields of a record hold, and for a
name a record with one field of that name, which holds null. -/
namespace TreeQuery

/-- Why a value is no stored selector list. -/
inductive RestoreError where
  | mismatch
  | emptyElementName
  | noSteps
  deriving DecidableEq, Repr

def RestoreError.message : RestoreError → String
  | .mismatch => "Not a stored selector list"
  | .emptyElementName => "Invalid selector structure: empty element name"
  | .noSteps => "Invalid selector structure: selector has no steps"

abbrev Restored := Except RestoreError

namespace StoredValue

def toText : StoredValue → Restored String
  | .text value => .ok value
  | _ => .error .mismatch

def toOption : StoredValue → Restored (Option String)
  | .null => .ok none
  | .text value => .ok (some value)
  | _ => .error .mismatch

/-- One of a fixed choice of names. -/
def toNamed {α : Type} (ofName? : String → Option α) : StoredValue → Restored α
  | .text name | .record [(name, .null)] => (ofName? name).elim (.error .mismatch) .ok
  | _ => .error .mismatch

def toItems {α : Type} (item : StoredValue → Restored α) : StoredValue → Restored (List α)
  | .list items => items.mapM item
  | _ => .error .mismatch

/-- The fields of a record with what they hold, or what all the fields `names` hold, one after
another. Items too many or too few are noticed after the ones that are there have been read. -/
def toRecord {α : Type} (names : List String)
    (read : List (String × StoredValue) → Restored α) : StoredValue → Restored α
  | .record fields => read fields
  | .list items => do
    let a ← read (names.zip items)
    if items.length = names.length then return a else .error .mismatch
  | _ => .error .mismatch

/-- A field that has to be given, and only once. -/
def required {α : Type} (fields : List (String × StoredValue)) (name : String)
    (value : StoredValue → Restored α) : Restored α :=
  match valuesOf name fields with
  | [field] => value field
  | _ => .error .mismatch

/-- A field that may be missing, which is the same as null. -/
def optional (fields : List (String × StoredValue)) (name : String) : Restored (Option String) :=
  match valuesOf name fields with
  | [] => .ok none
  | [field] => field.toOption
  | _ => .error .mismatch

end StoredValue

open StoredValue

namespace AttributeOperator

def all : List AttributeOperator :=
  [.present, .equals, .word, .segment, .contains, .startsWith, .endsWith]

def storedName : AttributeOperator → String
  | .present => "Exists"
  | .equals => "Exact"
  | .word => "Includes"
  | .segment => "DashMatch"
  | .contains => "Substring"
  | .startsWith => "Prefix"
  | .endsWith => "Suffix"

def ofStoredName? (name : String) : Option AttributeOperator :=
  all.find? fun operator => operator.storedName == name

def restore (value : StoredValue) : Restored AttributeOperator :=
  value.toNamed ofStoredName?

end AttributeOperator

namespace Combinator

def all : List Combinator :=
  [.none, .descendant, .child, .nextSibling, .subsequentSibling]

def storedName : Combinator → String
  | .none => "None"
  | .descendant => "Descendant"
  | .child => "Child"
  | .nextSibling => "AdjacentSibling"
  | .subsequentSibling => "GeneralSibling"

def ofStoredName? (name : String) : Option Combinator :=
  all.find? fun combinator => combinator.storedName == name

def restore (value : StoredValue) : Restored Combinator :=
  value.toNamed ofStoredName?

end Combinator

namespace AttributeSelector

def store (test : AttributeSelector) : StoredValue :=
  .record [
    ("name", .text test.name),
    ("namespace", .ofOption test.ns),
    ("operator", .text test.operator.storedName),
    ("value", .ofOption test.value)]

def fieldNames : List String := ["name", "namespace", "operator", "value"]

def ofFields (fields : List (String × StoredValue)) : Restored AttributeSelector := do
  let name ← required fields "name" toText
  let ns ← optional fields "namespace"
  let operator ← required fields "operator" AttributeOperator.restore
  let value ← optional fields "value"
  return { name, ns, operator, value }

def restore (value : StoredValue) : Restored AttributeSelector :=
  value.toRecord fieldNames ofFields

end AttributeSelector

namespace Step

def store (step : Step) : StoredValue :=
  .record [
    ("element", .ofOption step.element),
    ("namespace", .ofOption step.ns),
    ("id", .ofOption step.id),
    ("classes", .ofNames step.classes.names),
    ("attributes", .list (step.tests.map AttributeSelector.store)),
    ("pseudo_classes", .ofNames step.pseudoClasses),
    ("pseudo_elements", .ofNames step.pseudoElements),
    ("combinator", .text step.combinator.storedName)]

def fieldNames : List String :=
  ["element", "namespace", "id", "classes", "attributes", "pseudo_classes", "pseudo_elements",
    "combinator"]

def ofFields (fields : List (String × StoredValue)) : Restored Step := do
  let element ← optional fields "element"
  let ns ← optional fields "namespace"
  let id ← optional fields "id"
  let classes ← required fields "classes" (toItems toText)
  let tests ← required fields "attributes" (toItems AttributeSelector.restore)
  let pseudoClasses ← required fields "pseudo_classes" (toItems toText)
  let pseudoElements ← required fields "pseudo_elements" (toItems toText)
  let combinator ← required fields "combinator" Combinator.restore
  return {
    element, ns, id, classes := .ofList classes, tests, pseudoClasses, pseudoElements, combinator }

def restore (value : StoredValue) : Restored Step :=
  value.toRecord fieldNames ofFields

end Step

namespace Selector

def store (selector : Selector) : StoredValue :=
  .record [("steps", .list (selector.steps.map Step.store))]

/-- Empty element names are refused before a missing step. -/
def ofRestored (steps : List Step) : Restored Selector :=
  if steps.any fun step => step.element == some "" then .error .emptyElementName
  else match ofSteps? steps with
    | some selector => .ok selector
    | none => .error .noSteps

def fieldNames : List String := ["steps"]

def restore (value : StoredValue) : Restored Selector := do
  let steps ← value.toRecord fieldNames fun fields =>
    required fields "steps" (toItems Step.restore)
  ofRestored steps

end Selector

namespace SelectorList

def store (list : SelectorList) : StoredValue :=
  .record [("selectors", .list (list.members.map Selector.store))]

def fieldNames : List String := ["selectors"]

def restore (value : StoredValue) : Restored SelectorList := do
  let members ← value.toRecord fieldNames fun fields =>
    required fields "selectors" (toItems Selector.restore)
  return ⟨members⟩

end SelectorList

end TreeQuery
