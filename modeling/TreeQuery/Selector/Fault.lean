/-! Why a selector text cannot be read, or a selector cannot be evaluated. -/
namespace TreeQuery

inductive SyntaxFault where
  | danglingEscape
  | unterminatedString
  | emptySelector
  | unexpectedCharacter
  | expectedSelector
  | typeNotFirst
  | expectedId
  | expectedClass
  | expectedPseudoClass
  | expectedPseudoElement
  | expectedAttributeName
  | expectedAttributeValue
  | expectedAttributeOperator
  | expectedRightBracket
  | unterminatedAttribute
  deriving DecidableEq, Repr

def SyntaxFault.message : SyntaxFault → String
  | .danglingEscape => "dangling escape"
  | .unterminatedString => "unterminated string"
  | .emptySelector => "empty selector"
  | .unexpectedCharacter => "unexpected character"
  | .expectedSelector => "expected selector"
  | .typeNotFirst => "type selector must come first in a compound"
  | .expectedId => "expected id after '#'"
  | .expectedClass => "expected class name after '.'"
  | .expectedPseudoClass => "expected pseudo-class name"
  | .expectedPseudoElement => "expected pseudo-element name"
  | .expectedAttributeName => "expected attribute name"
  | .expectedAttributeValue => "expected attribute value"
  | .expectedAttributeOperator => "expected attribute operator or ']'"
  | .expectedRightBracket => "expected ']'"
  | .unterminatedAttribute => "unterminated attribute selector"

/-- Where a selector uses a namespace, which no evaluation supports. -/
inductive NamespaceUse where
  | written (text : String) (position : Nat)
  | onElement (ns : String)
  | onAttribute (name : String)
  deriving DecidableEq, Repr

def NamespaceUse.message : NamespaceUse → String
  | .written text position => s!"`{text}` at offset {position}"
  | .onElement ns => s!"element namespace `{ns}`"
  | .onAttribute name => s!"namespaced attribute `{name}`"

inductive SelectorError where
  | malformed (text : String) (position : Nat) (fault : SyntaxFault)
  | usesNamespace (use : NamespaceUse)
  | emptyElementName
  deriving DecidableEq, Repr

namespace SelectorError

def message : SelectorError → String
  | .malformed text position fault =>
    s!"Invalid selector `{text}` at offset {position}: {fault.message}"
  | .usesNamespace use => s!"Unsupported namespace: {use.message}"
  | .emptyElementName =>
    "Invalid selector structure: empty element name; use `None` for any element"

def position? : SelectorError → Option Nat
  | .malformed _ position _ => some position
  | _ => none

end SelectorError

end TreeQuery
