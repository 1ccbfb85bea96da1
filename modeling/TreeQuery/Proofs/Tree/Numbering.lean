import Mathlib.Data.List.Infix
import TreeQuery.Proofs.Tree.Names

/-! The numbers that a new table gives in a run of calls.
The names are numbered from 0 in the order in which they came first, each of them once, and a number
once given stays. All names lie in the buffer without a gap, which is why its size bounds every
number that the table keeps. -/
namespace TreeQuery

/-- The names of a new table that was given others, each where it came first. -/
def distinctNames (names : List String) : List String :=
  (NameTable.commonNames ++ names).eraseDups

/-- The bytes that all of the names take together. -/
def nameBytes (list : List String) : Nat := (String.join list).utf8ByteSize

variable {front back name : String} {list others names : List String}

theorem nameBytes_cons (name : String) (list : List String) :
    nameBytes (name :: list) = name.utf8ByteSize + nameBytes list := by
  rw [nameBytes, String.join_cons, String.utf8ByteSize_append, nameBytes]

theorem nameBytes_append (list others : List String) :
    nameBytes (list ++ others) = nameBytes list + nameBytes others := by
  rw [nameBytes, String.join_append, String.utf8ByteSize_append, nameBytes, nameBytes]

theorem length_le_nameBytes (h : ∀ name ∈ list, name ≠ "") : list.length ≤ nameBytes list := by
  induction list with
  | nil => exact Nat.zero_le _
  | cons name list ih =>
    obtain ⟨hname, hlist⟩ := List.forall_mem_cons.mp h
    have hpos : 0 < name.utf8ByteSize :=
      Nat.pos_of_ne_zero (mt String.utf8ByteSize_eq_zero_iff.mp hname)
    have hle := ih hlist
    rw [List.length_cons, nameBytes_cons]
    omega

theorem distinctNames_append (names others : List String) : ∃ more,
    distinctNames (names ++ others) = distinctNames names ++ more := by
  rw [distinctNames, ← List.append_assoc, List.eraseDups_append]
  exact ⟨_, rfl⟩

theorem distinctNames_eq_cons (names : List String) : ∃ rest,
    distinctNames names = "" :: rest ∧ ∀ name ∈ rest, name ≠ "" := by
  refine ⟨_, List.eraseDups_cons, fun name hn => ?_⟩
  have hfilter := (List.mem_filter.mp (List.mem_eraseDups.mp hn)).2
  simpa using hfilter

namespace NameTable

variable {table : NameTable}

/-- The table gives each name of a list its place as its number and reads it from its buffer, where
no slice leaves the buffer or splits a character; and all that it keeps fits into 32 bits. -/
structure Numbers (table : NameTable) (list : List String) : Prop where
  size : table.size = list.length
  lookup : ∀ name id, table.lookup name = some id ↔ list[id.index]? = some name
  get : ∀ name id, table.lookup name = some id → table.get id = name
  inside : ∀ entry ∈ table.entries, (String.Pos.Raw.mk entry.start).IsValid table.buffer ∧
    (String.Pos.Raw.mk (entry.start + entry.size)).IsValid table.buffer
  fits : (∀ name id, table.lookup name = some id → id.index < UInt32.size) ∧
    ∀ entry ∈ table.entries, entry.start < UInt32.size ∧ entry.size < UInt32.size

/-- The table lists the names, and its buffer is all of them in a row. -/
structure Packs (table : NameTable) (list : List String) : Prop extends table.Lists list where
  buffer : table.buffer = String.join list

theorem internAll_append (table : NameTable) (names others : List String) :
    table.internAll (names ++ others) = (table.internAll names).internAll others :=
  List.foldl_append

theorem keeps_internAll (table : NameTable) (names : List String) :
    table.Keeps (table.internAll names) := by
  induction names generalizing table with
  | nil => exact fun h => h
  | cons other names ih => exact fun h => ih _ (lookup_intern h)

namespace Packs

theorem empty : Packs {} [] := ⟨.empty, rfl⟩

theorem intern (h : table.Packs list) (name : String) :
    (table.intern name).2.Packs (if name ∈ list then list else list ++ [name]) := by
  cases hn : table.lookup name with
  | some id =>
    have hm : name ∈ list := List.mem_of_getElem? (h.lookup_iff.mp hn)
    rw [if_pos hm, NameTable.intern, hn]
    exact h
  | none =>
    rw [if_neg (h.not_mem hn)]
    refine ⟨h.push hn, ?_⟩
    rw [NameTable.intern, hn, String.join_append, String.join_cons, String.join_nil,
      String.append_empty, ← h.buffer]

theorem internAll (names : List String) :
    (({} : NameTable).internAll names).Packs names.eraseDups := by
  induction names using List.reverseRecOn with
  | nil => exact .empty
  | append_singleton names name ih =>
    have hstep := ih.intern name
    simp only [List.mem_eraseDups] at hstep
    rw [internAll_append, eraseDups_concat]
    exact hstep

theorem numbers (h : table.Packs ("" :: list)) (hne : ∀ name ∈ list, name ≠ "")
    (hsize : nameBytes ("" :: list) < UInt32.size) : table.Numbers ("" :: list) := by
  have hentry : ∀ entry ∈ table.entries, ∃ front name back,
      table.buffer = front ++ name ++ back ∧
        entry = ⟨front.utf8ByteSize, name.utf8ByteSize⟩ := by
    intro entry he
    obtain ⟨i, hi⟩ := Array.mem_iff_getElem?.mp he
    have hlt : i < ("" :: list).length := h.size ▸ (Array.getElem?_eq_some_iff.mp hi).1
    obtain ⟨front, back, hb, hf⟩ := h.entry i _ (List.getElem?_eq_getElem hlt)
    exact ⟨front, _, back, hb, Option.some.inj (hi.symm.trans hf)⟩
  have hbytes : table.buffer.utf8ByteSize < UInt32.size := by
    rw [h.buffer]
    exact hsize
  refine ⟨h.size, fun name id => h.lookup_iff, fun name id => h.get_of_lookup, ?_, ?_, ?_⟩
  · intro entry he
    obtain ⟨front, name, back, hb, rfl⟩ := hentry entry he
    rw [hb]
    exact isValid_around front name back
  · intro name id hn
    have hlt : id.index < ("" :: list).length :=
      (List.getElem?_eq_some_iff.mp (h.lookup_iff.mp hn)).1
    have hlist : list.length ≤ nameBytes list := length_le_nameBytes hne
    rw [nameBytes_cons] at hsize
    rw [List.length_cons] at hlt
    omega
  · intro entry he
    obtain ⟨front, name, back, hb, rfl⟩ := hentry entry he
    rw [hb, String.utf8ByteSize_append, String.utf8ByteSize_append] at hbytes
    dsimp only
    omega

end Packs

def after (names : List String) (calls : Nat) : NameTable :=
  initial.internAll (names.take calls)

def answer (names : List String) (call : Nat) (name : String) : NameId :=
  ((after names call).intern name).1

/-- The names that a table was given are at every moment numbered in the order of their arrival. -/
theorem numbers_after (hsize : nameBytes (distinctNames names) < UInt32.size) (calls : Nat) :
    (after names calls).Numbers (distinctNames (names.take calls)) := by
  obtain ⟨rest, hrest, hne⟩ := distinctNames_eq_cons (names.take calls)
  obtain ⟨more, hmore⟩ := distinctNames_append (names.take calls) (names.drop calls)
  rw [List.take_append_drop] at hmore
  have hbytes : nameBytes (distinctNames (names.take calls)) < UInt32.size := by
    rw [hmore, nameBytes_append] at hsize
    omega
  have hpacks : (after names calls).Packs (distinctNames (names.take calls)) := by
    rw [after, initial, ← internAll_append]
    exact .internAll _
  rw [hrest] at hbytes hpacks ⊢
  exact hpacks.numbers hne hbytes

theorem lookup_answer {i calls : Nat} (hi : names[i]? = some name) (hc : i < calls) :
    (after names calls).lookup name = some (answer names i name) := by
  obtain ⟨more, rfl⟩ := Nat.exists_eq_add_of_le hc
  have htake : names.take (i + 1) = names.take i ++ [name] := by
    rw [List.take_add_one, hi]
    rfl
  have hafter : after names (i + 1 + more) =
      ((after names i).intern name).2.internAll ((names.drop (i + 1)).take more) := by
    rw [after, List.take_add, htake, internAll_append, internAll_append]
    rfl
  rw [hafter]
  exact keeps_internAll _ _ (lookup_interned _ name)

/-- In every run of calls of which the names fit into 32 bits together, the number answered for a
name is read as that name and found for it ever after; different names have different numbers; the
names that have a number are those of a new table and those given to it, and their numbers go from 0
up in the order of first arrival. Looking up and reading answer no table: they leave it as it is. -/
theorem interned_run (names : List String)
    (hsize : nameBytes (distinctNames names) < UInt32.size) :
    (∀ i calls name, names[i]? = some name → i < calls →
      (after names calls).get (answer names i name) = name ∧
        (after names calls).lookup name = some (answer names i name)) ∧
      (∀ i j front back, names[i]? = some front → names[j]? = some back →
        (answer names i front = answer names j back ↔ front = back)) ∧
      ∀ calls, (after names calls).Numbers (distinctNames (names.take calls)) ∧
        (after names calls).lookup "" = some .emptyName ∧
        ∀ name, ((after names calls).lookup name).isSome = true ↔
          name ∈ commonNames ∨ name ∈ names.take calls := by
  have hnumbers := numbers_after hsize
  refine ⟨fun i calls name hi hc => ?_, fun i j front back hi hj => ?_, fun calls => ?_⟩
  · have hl := lookup_answer hi hc
    exact ⟨(hnumbers calls).get _ _ hl, hl⟩
  · have hf := lookup_answer hi (Nat.lt_succ_of_le (Nat.le_max_left i j))
    have hb := lookup_answer hj (Nat.lt_succ_of_le (Nat.le_max_right i j))
    constructor
    · intro he
      rw [he] at hf
      exact ((hnumbers _).get _ _ hf).symm.trans ((hnumbers _).get _ _ hb)
    · rintro rfl
      exact Option.some.inj (hf.symm.trans hb)
  · refine ⟨hnumbers calls, ?_, fun name => ?_⟩
    · obtain ⟨rest, hrest, -⟩ := distinctNames_eq_cons (names.take calls)
      exact ((hnumbers calls).lookup _ _).mpr (by rw [hrest]; rfl)
    · rw [Option.isSome_iff_exists, ← List.mem_append, ← List.mem_eraseDups,
        List.mem_iff_getElem?]
      constructor
      · rintro ⟨id, hn⟩
        exact ⟨id.index, ((hnumbers calls).lookup _ _).mp hn⟩
      · rintro ⟨i, hi⟩
        exact ⟨⟨i⟩, ((hnumbers calls).lookup _ _).mpr hi⟩

/-- A name given twice, with a character of two bytes, and one that a new table has already. -/
theorem interned_run_of_repeat :
    let names := ["é", "id", "é"]
    nameBytes (distinctNames names) < UInt32.size ∧
      (after names 3).get (answer names 0 "é") = "é" ∧
      answer names 0 "é" = answer names 2 "é" ∧ answer names 0 "é" ≠ answer names 1 "id" := by
  intro names
  have hsize : nameBytes (distinctNames names) < UInt32.size := by decide
  obtain ⟨hget, hsame, -⟩ := interned_run names hsize
  refine ⟨hsize, (hget 0 3 "é" rfl (by decide)).1, (hsame 0 2 _ _ rfl rfl).mpr rfl, ?_⟩
  exact mt (hsame 0 1 _ _ rfl rfl).mp (by decide)

end NameTable

end TreeQuery
