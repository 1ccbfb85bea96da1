/-! Values as data formats hold them. -/
namespace TreeQuery

/-- A number is `mantissa * 10 ^ (-exponent)`. -/
inductive StoredValue where
  | null
  | bool (value : Bool)
  | number (mantissa : Int) (exponent : Nat)
  | text (value : String)
  | list (items : List StoredValue)
  | record (fields : List (String × StoredValue))
  deriving Inhabited

namespace StoredValue

/-- The values that a record gives for a field. -/
def valuesOf (name : String) (fields : List (String × StoredValue)) : List StoredValue :=
  fields.filterMap fun field => if field.1 = name then some field.2 else none

def ofOption : Option String → StoredValue
  | none => .null
  | some value => .text value

def ofNames (names : List String) : StoredValue :=
  .list (names.map .text)

end StoredValue

end TreeQuery
