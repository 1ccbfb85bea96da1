import TreeQuery.Selector.Basic

/-! The tokens of a selector text.
A name that starts with a bare digit is a numeral, which can be an id or a value only. -/
namespace TreeQuery

inductive Token where
  | ident (name : String)
  | numeral (name : String)
  | quoted (text : String)
  | star
  | hash
  | dot
  | leftBracket
  | rightBracket
  | colon
  | doubleColon
  | comma
  | blank
  | greater
  | plus
  | tilde
  | pipe
  | operator (op : AttributeOperator)
  | other (c : Char)
  deriving DecidableEq, Repr

/-- A token with the byte offset where it starts. -/
structure PlacedToken where
  token : Token
  offset : Nat
  deriving DecidableEq, Repr

end TreeQuery
