import Std.Data.HashSet

/-! Sets that list their members in the order of first arrival. -/
namespace TreeQuery

structure ArrivalSet (α : Type) [BEq α] [Hashable α] where
  order : Array α := #[]
  seen : Std.HashSet α := {}

namespace ArrivalSet

variable {α : Type} [BEq α] [Hashable α]

def empty : ArrivalSet α := {}

def contains (set : ArrivalSet α) (a : α) : Bool := set.seen.contains a

/-- Puts a member at the end unless it is there already, and says whether it was new. -/
def insert (set : ArrivalSet α) (a : α) : Bool × ArrivalSet α :=
  if set.contains a then (false, set)
  else (true, ⟨set.order.push a, set.seen.insert a⟩)

def extend (set : ArrivalSet α) (items : List α) : ArrivalSet α :=
  items.foldl (fun set a => (set.insert a).2) set

def ofList (items : List α) : ArrivalSet α := empty.extend items

def single (a : α) : ArrivalSet α := ofList [a]

def toList (set : ArrivalSet α) : List α := set.order.toList

def size (set : ArrivalSet α) : Nat := set.order.size

def isEmpty (set : ArrivalSet α) : Bool := set.order.isEmpty

def sameMembers (front back : ArrivalSet α) : Bool := front.seen.beq back.seen

@[simp] theorem toList_empty : (empty : ArrivalSet α).toList = [] := rfl

theorem toList_insert (set : ArrivalSet α) (a : α) :
    (set.insert a).2.toList = if set.contains a then set.toList else set.toList ++ [a] := by
  unfold insert
  split <;> simp [toList]

theorem contains_insert [EquivBEq α] [LawfulHashable α] (set : ArrivalSet α) (a b : α) :
    (set.insert a).2.contains b = (a == b || set.contains b) := by
  unfold insert
  split
  · rename_i h
    cases hab : a == b
    · rfl
    · exact (Std.HashSet.contains_congr hab).symm.trans h
  · exact Std.HashSet.contains_insert

end ArrivalSet

end TreeQuery
