/-! The characters of names.
Beyond ASCII every character belongs, blank ones included; an escaped character always does. -/
namespace TreeQuery

/-- The characters that stand for themselves inside a name. -/
def isNameChar (c : Char) : Bool :=
  c.isAlphanum || c == '-' || c == '_' || 128 ≤ c.toNat

end TreeQuery
