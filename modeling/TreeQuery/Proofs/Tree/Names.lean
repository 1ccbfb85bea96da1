import TreeQuery.Proofs.Repetition
import TreeQuery.Tree.NameTable

/-! The numbers of a name table.
A table that was built by interning lists each of its names once, in the order of their numbers, and
finds each in the buffer again. A name that has a number keeps it whatever is interned later. -/
namespace TreeQuery

theorem isValid_around (front name back : String) :
    (String.Pos.Raw.mk front.utf8ByteSize).IsValid (front ++ name ++ back) ∧
      (String.Pos.Raw.mk (front.utf8ByteSize + name.utf8ByteSize)).IsValid
        (front ++ name ++ back) := by
  constructor
  · exact (String.Pos.Raw.isValid_rawEndPos.append_right name).append_right back
  · rw [← String.utf8ByteSize_append]
    exact String.Pos.Raw.isValid_rawEndPos.append_right back

theorem sliceBytes_append (front name back : String) :
    sliceBytes (front ++ name ++ back) front.utf8ByteSize name.utf8ByteSize = name := by
  rw [sliceBytes, dif_pos (isValid_around front name back), ← String.toByteArray_inj,
    String.toByteArray_extract, String.toByteArray_append, String.toByteArray_append,
    ByteArray.append_assoc]
  exact (ByteArray.extract_append_size_add (i := 0)).trans (ByteArray.extract_append_eq_left rfl)

theorem getElem?_concat_iff {α : Type} {list : List α} {a b : α} {i : Nat} :
    (list ++ [a])[i]? = some b ↔ list[i]? = some b ∨ i = list.length ∧ a = b := by
  by_cases hi : i < list.length
  · rw [List.getElem?_append_left hi]
    exact (or_iff_left fun he => Nat.ne_of_lt hi he.1).symm
  · have hle : list.length ≤ i := Nat.le_of_not_lt hi
    have hzero : i - list.length = 0 ↔ i = list.length := by omega
    rw [List.getElem?_append_right hle, List.getElem?_eq_none hle, List.getElem?_singleton]
    simp [hzero]

namespace NameTable

variable {table names others : NameTable} {name other : String} {id : NameId} {list : List String}

/-- The names that have a number, in the order of their numbers, and where the buffer has them. -/
structure Lists (table : NameTable) (list : List String) : Prop where
  size : table.size = list.length
  number : ∀ (name : String) (i : Nat), table.numbers[name]? = some i ↔ list[i]? = some name
  entry : ∀ (i : Nat) (name : String), list[i]? = some name → ∃ front back,
    table.buffer = front ++ name ++ back ∧
      table.entries[i]? = some ⟨front.utf8ByteSize, name.utf8ByteSize⟩

/-- Tables that list names: all that were built by interning. -/
def Listed (table : NameTable) : Prop := ∃ list, table.Lists list

def Keeps (names others : NameTable) : Prop :=
  ∀ {name id}, names.lookup name = some id → others.lookup name = some id

theorem Keeps.refl (names : NameTable) : names.Keeps names := fun h => h

theorem lookup_intern (h : table.lookup name = some id) :
    (table.intern other).2.lookup name = some id := by
  rw [intern]
  split
  · exact h
  · rename_i hn
    have hne : other ≠ name := by
      rintro rfl
      exact absurd (h.symm.trans hn) nofun
    rw [lookup, Std.HashMap.getElem?_insert, if_neg (by simpa using hne)]
    exact h

theorem keeps_intern (table : NameTable) (other : String) : table.Keeps (table.intern other).2 :=
  lookup_intern

theorem lookup_interned (table : NameTable) (name : String) :
    (table.intern name).2.lookup name = some (table.intern name).1 := by
  rw [intern]
  split
  · rename_i h
    exact h
  · rw [lookup, Std.HashMap.getElem?_insert_self]
    rfl

namespace Lists

theorem lookup_iff (h : table.Lists list) :
    table.lookup name = some id ↔ list[id.index]? = some name := by
  rw [lookup, Option.map_eq_some_iff, ← h.number]
  constructor
  · rintro ⟨i, hi, rfl⟩
    exact hi
  · exact fun hi => ⟨id.index, hi, rfl⟩

theorem not_mem (h : table.Lists list) (hn : table.lookup name = none) : name ∉ list := by
  intro hm
  obtain ⟨i, hi⟩ := List.mem_iff_getElem?.mp hm
  have hnumber : table.lookup name = some ⟨i⟩ := h.lookup_iff.mpr hi
  exact absurd (hn.symm.trans hnumber) nofun

theorem empty : Lists {} [] := by
  constructor
  · rfl
  · intro name i
    rw [Std.HashMap.getElem?_empty, List.getElem?_nil]
    exact ⟨nofun, nofun⟩
  · exact nofun

theorem push (h : table.Lists list) (hn : table.lookup name = none) :
    (table.intern name).2.Lists (list ++ [name]) := by
  have hnew : name ∉ list := h.not_mem hn
  rw [intern, hn]
  constructor
  case size => rw [List.length_append, ← h.size]; exact Array.size_push _
  case number =>
    intro other i
    rw [Std.HashMap.getElem?_insert, h.size, getElem?_concat_iff, ← h.number]
    by_cases he : name = other
    · subst he
      rw [if_pos (beq_self_eq_true name), Option.some_inj]
      constructor
      · exact fun hi => .inr ⟨hi.symm, rfl⟩
      · rintro (hi | ⟨hi, -⟩)
        · exact absurd (List.mem_of_getElem? ((h.number name i).mp hi)) hnew
        · exact hi.symm
    · rw [if_neg (by simpa using he)]
      exact (or_iff_left fun hi => he hi.2).symm
  case entry =>
    intro i other hi
    rcases getElem?_concat_iff.mp hi with hi | ⟨rfl, rfl⟩
    · obtain ⟨front, back, hb, he⟩ := h.entry i other hi
      refine ⟨front, back ++ name, ?_, ?_⟩
      · rw [hb, String.append_assoc]
      · have hlt : i < table.entries.size := (Array.getElem?_eq_some_iff.mp he).1
        rw [Array.getElem?_push, if_neg (Nat.ne_of_lt hlt)]
        exact he
    · refine ⟨table.buffer, "", (String.append_empty ..).symm, ?_⟩
      rw [Array.getElem?_push]
      exact if_pos h.size.symm

theorem get_of_lookup (h : table.Lists list) (hn : table.lookup name = some id) :
    table.get id = name := by
  obtain ⟨front, back, hb, he⟩ := h.entry _ _ (h.lookup_iff.mp hn)
  rw [get, he, hb]
  exact sliceBytes_append front name back

end Lists

namespace Listed

theorem intern (h : table.Listed) (name : String) : (table.intern name).2.Listed := by
  cases hn : table.lookup name with
  | some id =>
    rw [NameTable.intern, hn]
    exact h
  | none =>
    obtain ⟨list, hl⟩ := h
    exact ⟨_, hl.push hn⟩

theorem initial : NameTable.initial.Listed := by
  have main : ∀ (names : List String) (table : NameTable), table.Listed →
      (table.internAll names).Listed := by
    intro names
    induction names with
    | nil => exact fun _ h => h
    | cons name names ih => exact fun table h => ih _ (h.intern name)
  exact main commonNames {} ⟨[], .empty⟩

theorem get_of_lookup (h : table.Listed) (hn : table.lookup name = some id) :
    table.get id = name := by
  obtain ⟨list, hl⟩ := h
  exact hl.get_of_lookup hn

theorem lookup_inj (h : table.Listed) (hn : table.lookup name = some id)
    (ho : table.lookup other = some id) : name = other :=
  (h.get_of_lookup hn).symm.trans (h.get_of_lookup ho)

end Listed

end NameTable

end TreeQuery
