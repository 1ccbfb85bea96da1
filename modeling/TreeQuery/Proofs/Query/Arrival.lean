import TreeQuery.Proofs.Repetition
import TreeQuery.Query.ArrivalSet

/-! Sets that list their members in the order of first arrival.
The sequence of members and the hash set beside it stay in step, whatever is done with the set. So a
set is known by what has arrived since it was last replaced, and two sets are the same if the same
members have arrived, in whatever order. -/
namespace TreeQuery

namespace ArrivalSet

/-- A call that puts a new set in the place of a set, or changes it. -/
inductive Call (α : Type) where
  | empty
  | single (a : α)
  | collect (items : List α)
  | insert (a : α)
  | extend (items : List α)
  deriving DecidableEq, Repr

/-- What has arrived when a call is done, by what had arrived before it. -/
def Call.arrived {α : Type} (before : List α) : Call α → List α
  | .empty => []
  | .single a => [a]
  | .collect items => items
  | .insert a => before ++ [a]
  | .extend items => before ++ items

/-- All that has arrived since a call last put a new set in the place, repetitions included. -/
def arrivals {α : Type} (calls : List (Call α)) : List α := calls.foldl Call.arrived []

variable {α : Type} [BEq α] [Hashable α]

def Call.apply (set : ArrivalSet α) : Call α → ArrivalSet α
  | .empty => .empty
  | .single a => .single a
  | .collect items => .ofList items
  | .insert a => (set.insert a).2
  | .extend items => set.extend items

def run (calls : List (Call α)) : ArrivalSet α := calls.foldl Call.apply .empty

/-- The hash set and the sequence have the same members. -/
def Coherent (set : ArrivalSet α) : Prop := ∀ a, set.contains a = true ↔ a ∈ set.toList

theorem coherent_empty : Coherent (empty : ArrivalSet α) := by
  intro a
  change Std.HashSet.contains ({} : Std.HashSet α) a = true ↔ a ∈ []
  simp

/-- The set holds what has arrived, each member once and in the order of first arrival. -/
structure Holds (set : ArrivalSet α) (items : List α) : Prop where
  coherent : set.Coherent
  listed : set.toList = items.eraseDups

theorem holds_empty : (empty : ArrivalSet α).Holds [] := ⟨coherent_empty, rfl⟩

theorem extend_append (set : ArrivalSet α) (front back : List α) :
    set.extend (front ++ back) = (set.extend front).extend back := List.foldl_append

theorem insert_of_contains {set : ArrivalSet α} {a : α} (h : set.contains a = true) :
    set.insert a = (false, set) := if_pos h

variable [LawfulBEq α] {set front back : ArrivalSet α} {items : List α}

theorem Coherent.insert (h : set.Coherent) (a : α) : (set.insert a).2.Coherent := by
  intro b
  rw [contains_insert, toList_insert, Bool.or_eq_true, beq_iff_eq, h b]
  split
  · rename_i ha
    exact or_iff_right_of_imp fun he => he ▸ (h a).mp ha
  · rw [List.mem_append, List.mem_singleton, or_comm, eq_comm]

theorem Coherent.extend (h : set.Coherent) (items : List α) : (set.extend items).Coherent := by
  induction items generalizing set with
  | nil => exact h
  | cons a items ih => exact ih (h.insert a)

theorem toList_extend (h : set.Coherent) (items : List α) :
    (set.extend items).toList =
      set.toList ++ (items.filter fun a => !set.contains a).eraseDups := by
  induction items generalizing set with
  | nil => exact (List.append_nil _).symm
  | cons a items ih =>
    have hstep : set.extend (a :: items) = (set.insert a).2.extend items := rfl
    rw [hstep, ih (h.insert a), toList_insert]
    cases ha : set.contains a with
    | true =>
      rw [insert_of_contains ha, List.filter_cons_of_neg (by simp [ha]), if_pos rfl]
    | false =>
      rw [List.filter_cons_of_pos (by simp [ha]), List.eraseDups_cons, List.filter_filter,
        if_neg (by simp), List.append_assoc, List.singleton_append]
      congr 3
      apply List.filter_congr
      intro b _
      rw [contains_insert, Bool.not_or, Bool.beq_comm]

theorem toList_ofList (items : List α) : (ofList items).toList = items.eraseDups := by
  have hnone : ∀ a : α, (!(empty : ArrivalSet α).contains a) = true := by
    intro a
    cases hc : (empty : ArrivalSet α).contains a with
    | false => rfl
    | true => exact absurd ((coherent_empty a).mp hc) List.not_mem_nil
  rw [ofList, toList_extend coherent_empty, List.filter_eq_self.mpr fun a _ => hnone a]
  rfl

theorem nodup_ofList (items : List α) : (ofList items).toList.Nodup := by
  rw [toList_ofList]
  exact nodup_eraseDups items

theorem toList_ofList_of_nodup {items : List α} (hn : items.Nodup) :
    (ofList items).toList = items := by
  rw [toList_ofList, eraseDups_of_nodup hn]

namespace Holds

theorem contains_iff (h : set.Holds items) (a : α) : set.contains a = true ↔ a ∈ items := by
  rw [h.coherent a, h.listed, List.mem_eraseDups]

theorem extend (h : set.Holds items) (others : List α) :
    (set.extend others).Holds (items ++ others) := by
  refine ⟨h.coherent.extend others, ?_⟩
  have hnew : others.filter (fun a => !set.contains a) = others.removeAll items := by
    refine List.filter_congr fun a _ => congrArg _ ?_
    rw [Bool.eq_iff_iff, h.contains_iff, List.elem_iff]
  rw [toList_extend h.coherent, h.listed, hnew, List.eraseDups_append]

/-- A call keeps the set and its account of arrivals in step. -/
theorem apply (h : set.Holds items) (call : Call α) :
    (call.apply set).Holds (call.arrived items) := by
  cases call with
  | empty => exact holds_empty
  | single a => exact holds_empty.extend [a]
  | collect others => exact holds_empty.extend others
  | insert a => exact h.extend [a]
  | extend others => exact h.extend others

end Holds

theorem holds_run (calls : List (Call α)) : (run calls).Holds (arrivals calls) := by
  have main : ∀ (calls : List (Call α)) {set : ArrivalSet α} {items : List α}, set.Holds items →
      (calls.foldl Call.apply set).Holds (calls.foldl Call.arrived items) := by
    intro calls
    induction calls with
    | nil => exact fun h => h
    | cons call calls ih => exact fun h => ih (h.apply call)
  exact main calls holds_empty

theorem sameMembers_iff :
    front.sameMembers back = true ↔ ∀ a, front.contains a = true ↔ back.contains a = true := by
  have hequiv : front.sameMembers back = true ↔ front.seen.Equiv back.seen :=
    Std.HashSet.beq_iff_equiv
  rw [hequiv]
  exact ⟨fun h a => h.mem_iff, Std.HashSet.Equiv.of_forall_mem_iff⟩

/-- Whatever calls were made, the set lists what has arrived since it was last replaced, each member
once and in the order of first arrival, and contains what it lists. A member that is inserted is put
at the end if it is new, and changes nothing if it is not. Two sets are the same exactly if they
list the same members. -/
theorem run_lists (calls : List (Call α)) :
    (run calls).toList = (arrivals calls).eraseDups ∧
      (run calls).toList.Nodup ∧
      (run calls).toList.Pairwise
        (fun a b => (arrivals calls).idxOf a < (arrivals calls).idxOf b) ∧
      (∀ a, (run calls).contains a = true ↔ a ∈ (run calls).toList) ∧
      (∀ a, a ∈ (run calls).toList → (run calls).insert a = (false, run calls)) ∧
      (∀ a, a ∉ (run calls).toList → ((run calls).insert a).1 = true ∧
        ((run calls).insert a).2.toList = (run calls).toList ++ [a]) ∧
      (∀ items : List α, (ofList items).toList = items.eraseDups) ∧
      ∀ others, (run calls).sameMembers (run others) = true ↔
        ∀ a, a ∈ (run calls).toList ↔ a ∈ (run others).toList := by
  have h := holds_run calls
  refine ⟨h.listed, ?_, ?_, h.coherent, fun a ha => ?_, fun a ha => ?_, toList_ofList,
    fun others => ?_⟩
  · rw [h.listed]
    exact nodup_eraseDups _
  · rw [h.listed]
    exact pairwise_eraseDups _
  · exact insert_of_contains ((h.coherent a).mpr ha)
  · have hnew : ¬(run calls).contains a = true := mt (h.coherent a).mp ha
    rw [toList_insert, if_neg hnew, insert, if_neg hnew]
    exact ⟨rfl, rfl⟩
  · rw [sameMembers_iff]
    exact forall_congr' fun a => iff_congr (h.coherent a) ((holds_run others).coherent a)

/-- What was there before the set was replaced is gone, and what arrives again keeps its place. -/
theorem run_lists_of_replaced :
    let calls : List (Call Nat) := [.single 7, .collect [3, 1, 3], .insert 2, .extend [1, 4]]
    let others : List (Call Nat) := [.extend [4, 2, 4], .insert 3, .insert 1]
    LawfulBEq Nat ∧ (run calls).toList = [3, 1, 2, 4] ∧ (run others).toList = [4, 2, 3, 1] ∧
      (run calls).sameMembers (run others) = true ∧
      (run calls).insert 2 = (false, run calls) ∧
      ((run calls).insert 7).2.toList = [3, 1, 2, 4, 7] := by
  intro calls others
  obtain ⟨hlist, -, -, -, hold, hnew, -, hsame⟩ := run_lists calls
  have hcalls : (run calls).toList = [3, 1, 2, 4] := hlist
  have hothers : (run others).toList = [4, 2, 3, 1] := (run_lists others).1
  refine ⟨inferInstance, hcalls, hothers, (hsame others).mpr fun a => ?_, hold 2 ?_, ?_⟩
  · rw [hcalls, hothers]
    exact List.Perm.mem_iff (by decide)
  · rw [hcalls]
    decide
  · rw [(hnew 7 (by rw [hcalls]; decide)).2, hcalls]
    rfl

end ArrivalSet

end TreeQuery
