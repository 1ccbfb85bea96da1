/-! Sets of names kept in ascending order of their code points, each name once.
Two sets with the same members are equal. -/
namespace TreeQuery

/-- Puts a name at its place in an ascending list, unless it is there already. -/
def insertAscending (name : String) : List String → List String
  | [] => [name]
  | other :: rest =>
    if name < other then name :: other :: rest
    else if name = other then other :: rest
    else other :: insertAscending name rest

theorem mem_insertAscending {name other : String} {names : List String} :
    other ∈ insertAscending name names ↔ other = name ∨ other ∈ names := by
  induction names with
  | nil => simp [insertAscending]
  | cons first rest ih =>
    unfold insertAscending
    split
    · simp
    · split
      · simp_all
      · rw [List.mem_cons, List.mem_cons, ih, or_left_comm]

theorem insertAscending_pairwise {name : String} {names : List String}
    (h : names.Pairwise (· < ·)) : (insertAscending name names).Pairwise (· < ·) := by
  induction names with
  | nil => simp [insertAscending]
  | cons first rest ih =>
    have hrest := List.pairwise_cons.1 h
    unfold insertAscending
    split
    case isTrue hlt =>
      refine List.pairwise_cons.2 ⟨fun other ho => ?_, h⟩
      rcases List.mem_cons.1 ho with rfl | ho
      · exact hlt
      · exact String.lt_trans hlt (hrest.1 other ho)
    case isFalse hlt =>
      split
      case isTrue => exact h
      case isFalse hne =>
        refine List.pairwise_cons.2 ⟨fun other ho => ?_, ih hrest.2⟩
        rcases mem_insertAscending.1 ho with rfl | ho
        · exact Std.lt_of_le_of_ne (Std.not_lt.1 hlt) (Ne.symm hne)
        · exact hrest.1 other ho

theorem eq_of_ascending {front back : List String} (hf : front.Pairwise (· < ·))
    (hb : back.Pairwise (· < ·)) (h : ∀ name, name ∈ front ↔ name ∈ back) : front = back := by
  induction front generalizing back with
  | nil => exact (List.eq_nil_iff_forall_not_mem.2 fun name hm => by simpa using (h name).2 hm).symm
  | cons a as ih =>
    cases back with
    | nil => simpa using (h a).1 (by simp)
    | cons b bs =>
      have ha := List.pairwise_cons.1 hf
      have hbs := List.pairwise_cons.1 hb
      have hab : a = b := by
        rcases List.mem_cons.1 ((h a).1 (by simp)) with rfl | hm
        · rfl
        · rcases List.mem_cons.1 ((h b).2 (by simp)) with hm' | hm'
          · exact hm'.symm
          · exact absurd (String.lt_trans (hbs.1 a hm) (ha.1 b hm')) (String.lt_irrefl b)
      subst hab
      refine congrArg (a :: ·) (ih ha.2 hbs.2 fun name => ?_)
      have hn := h name
      simp only [List.mem_cons] at hn
      constructor
      · intro hm
        rcases hn.1 (.inr hm) with rfl | hm'
        · exact absurd (ha.1 name hm) (String.lt_irrefl name)
        · exact hm'
      · intro hm
        rcases hn.2 (.inr hm) with rfl | hm'
        · exact absurd (hbs.1 name hm) (String.lt_irrefl name)
        · exact hm'

structure NameSet where
  names : List String
  ascending : names.Pairwise (· < ·)
  deriving DecidableEq

namespace NameSet

def empty : NameSet := ⟨[], .nil⟩

def isEmpty (set : NameSet) : Bool := set.names.isEmpty

def insert (set : NameSet) (name : String) : NameSet :=
  ⟨insertAscending name set.names, insertAscending_pairwise set.ascending⟩

def ofList (names : List String) : NameSet :=
  names.foldl insert empty

instance : Membership String NameSet := ⟨fun set name => name ∈ set.names⟩

@[ext] theorem ext {front back : NameSet} (h : ∀ name, name ∈ front ↔ name ∈ back) :
    front = back := by
  cases front with
  | mk names hf =>
    cases back with
    | mk others hb =>
      have := eq_of_ascending hf hb h
      subst this
      rfl

@[simp] theorem mem_insert {set : NameSet} {name other : String} :
    other ∈ set.insert name ↔ other = name ∨ other ∈ set :=
  mem_insertAscending

@[simp] theorem not_mem_empty (name : String) : name ∉ empty :=
  List.not_mem_nil

theorem mem_ofList {names : List String} {name : String} : name ∈ ofList names ↔ name ∈ names := by
  suffices h : ∀ set : NameSet, name ∈ names.foldl insert set ↔ name ∈ names ∨ name ∈ set by
    simpa [ofList] using h empty
  induction names with
  | nil => simp
  | cons first rest ih =>
    intro set
    rw [List.foldl_cons, ih, mem_insert, List.mem_cons, or_left_comm, or_assoc]

end NameSet

end TreeQuery
