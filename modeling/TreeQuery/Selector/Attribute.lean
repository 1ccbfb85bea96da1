import TreeQuery.Selector.Basic
import TreeQuery.Text.Blank

/-! When the value of an attribute satisfies an attribute selector.
Values are compared exactly; only `=` accepts an empty wanted value. -/
namespace TreeQuery

/-- Whether `part` stands somewhere in the text without a gap. -/
def holdsWithin (part : List Char) : List Char → Bool
  | [] => part.isEmpty
  | c :: text => part.isPrefixOf (c :: text) || holdsWithin part text

def classWords (value : String) : List String :=
  (words value.toList).map String.ofList

namespace AttributeOperator

/-- Whether `actual` stands in the operator's relation to `wanted`.
A shorter value is refused first, which no operator but `present` could accept. -/
def accepts (operator : AttributeOperator) (wanted actual : String) : Bool :=
  if actual.utf8ByteSize < wanted.utf8ByteSize then false
  else match operator with
    | .present => true
    | .equals => wanted == actual
    | .word => wanted != "" && (classWords actual).contains wanted
    | .segment => wanted != "" && (actual.toList.splitOn '-').contains wanted.toList
    | .contains => wanted != "" && holdsWithin wanted.toList actual.toList
    | .startsWith => wanted != "" && wanted.toList.isPrefixOf actual.toList
    | .endsWith => wanted != "" && wanted.toList.isSuffixOf actual.toList

end AttributeOperator

/-- Whether an attribute with this value, or its absence, satisfies the selector. -/
def AttributeSelector.holds (test : AttributeSelector) : Option String → Bool
  | none => false
  | some actual =>
    match test.operator, test.value with
    | .present, _ => true
    | operator, some wanted => operator.accepts wanted actual
    | _, none => false

end TreeQuery
