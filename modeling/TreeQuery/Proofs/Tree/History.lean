import TreeQuery.Proofs.Tree.Names
import TreeQuery.Tree.Build

/-! The steps of a run told without a tree: what was made, and which attributes were set.
Only two rules shorten a history: nothing is made where no place is left, and attributes are set at
elements alone. -/
namespace TreeQuery

/-- What an element was made with. -/
structure Origin where
  tag : String
  ns : Option String := none
  deriving DecidableEq, Repr

/-- An attribute that was set. -/
structure AttributeWrite where
  id : NodeId
  name : String
  value : String
  deriving DecidableEq, Repr

namespace AttributeWrite

/-- The names that were set, each where it was set first. -/
def names (writes : List AttributeWrite) : List String := (writes.map name).eraseDups

def last? (writes : List AttributeWrite) (key : String) : Option String :=
  (writes.filter (·.name = key)).getLast?.map value

variable {writes : List AttributeWrite} {write : AttributeWrite} {key : String}

theorem names_concat : names (writes ++ [write]) =
    if write.name ∈ names writes then names writes else names writes ++ [write.name] := by
  rw [names, names, List.map_append, List.map_singleton, eraseDups_concat]
  simp only [List.mem_eraseDups]

theorem last?_concat_self : last? (writes ++ [write]) write.name = some write.value := by
  rw [last?, List.filter_append, List.filter_cons_of_pos (by simp)]
  exact congrArg _ List.getLast?_concat

theorem last?_concat_of_ne (h : key ≠ write.name) :
    last? (writes ++ [write]) key = last? writes key := by
  rw [last?, List.filter_append, List.filter_cons_of_neg (by simpa using h.symm)]
  exact congrArg _ (congrArg _ (List.append_nil _))

end AttributeWrite

/-- What was made, place by place, and the attributes that were set. Nodes that are no elements have
no origin; the first of them is the document. -/
structure History where
  made : List (Option Origin) := [none]
  writes : List AttributeWrite := []
  deriving DecidableEq, Repr

namespace Growth

/-- What a step makes before it does anything else. -/
def makes? : Growth → Option (Option Origin)
  | .createElement tag | .appendElement _ tag _ => some (some { tag })
  | .createElementIn ns tag => some (some { tag, ns := some ns })
  | .createText _ | .createComment _ | .appendText _ _ => some none
  | .append _ _ | .setAttribute _ _ _ => none

/-- The attributes that a step sets, where `made` is the node that it makes. -/
def sets (made : NodeId) : Growth → List AttributeWrite
  | .setAttribute id name value => [⟨id, name, value⟩]
  | .appendElement _ _ attributes => attributes.map fun (name, value) => ⟨made, name, value⟩
  | _ => []

end Growth

namespace History

/-- The origin of an element; of another node, and of a handle without a node, there is none. -/
def origin? (history : History) (id : NodeId) : Option Origin := history.made[id.index]?.join

def writesTo (history : History) (id : NodeId) : List AttributeWrite :=
  history.writes.filter (·.id = id)

def value? (history : History) (id : NodeId) (name : String) : Option String :=
  AttributeWrite.last? (history.writesTo id) name

def names (history : History) (id : NodeId) : List String :=
  AttributeWrite.names (history.writesTo id)

def make (history : History) (origin : Option Origin) : History :=
  if history.made.length < NodeId.limit then { history with made := history.made ++ [origin] }
  else history

def write (history : History) (write : AttributeWrite) : History :=
  if (history.origin? write.id).isSome then { history with writes := history.writes ++ [write] }
  else history

/-- The history after one more step. Whether the step puts a node into the tree in the end, and
whether it fails there, does not matter. -/
def note (history : History) (step : Growth) : History :=
  (step.sets ⟨history.made.length⟩).foldl write (step.makes?.elim history history.make)

def ofSteps (steps : List Growth) : History := steps.foldl note {}

variable {history : History} {write : AttributeWrite} {id : NodeId}

theorem lt_of_origin? (h : (history.origin? id).isSome = true) :
    id.index < history.made.length := by
  refine Nat.lt_of_not_le fun hle => ?_
  rw [origin?, List.getElem?_eq_none hle] at h
  exact absurd h (by decide)

theorem origin?_of_prefix {other : History} (h : history.made <+: other.made)
    (hi : id.index < history.made.length) : other.origin? id = history.origin? id := by
  obtain ⟨extra, he⟩ := h
  rw [origin?, ← he, List.getElem?_append_left hi]
  rfl

theorem origin?_concat (history : History) (origin : Option Origin) (id : NodeId) :
    origin? { history with made := history.made ++ [origin] } id =
      if id.index = history.made.length then origin else history.origin? id := by
  rw [origin?]
  rcases Nat.lt_trichotomy id.index history.made.length with hlt | he | hgt
  · rw [if_neg (Nat.ne_of_lt hlt), List.getElem?_append_left hlt]
    rfl
  · rw [if_pos he, he, List.getElem?_concat_length]
    rfl
  · rw [if_neg (Nat.ne_of_gt hgt), List.getElem?_eq_none (by simp; omega), origin?,
      List.getElem?_eq_none (Nat.le_of_lt hgt)]

theorem make_of_room {origin : Option Origin} (h : history.made.length < NodeId.limit) :
    history.make origin = { history with made := history.made ++ [origin] } :=
  if_pos h

theorem make_of_full {origin : Option Origin} (h : ¬ history.made.length < NodeId.limit) :
    history.make origin = history :=
  if_neg h

theorem prefix_make (history : History) (origin : Option Origin) :
    history.made <+: (history.make origin).made := by
  rw [make]
  split
  · exact List.prefix_append _ _
  · exact List.prefix_rfl

theorem write_of_some {origin : Origin} (h : history.origin? write.id = some origin) :
    history.write write = { history with writes := history.writes ++ [write] } :=
  if_pos (congrArg Option.isSome h)

theorem write_of_none (h : history.origin? write.id = none) : history.write write = history :=
  if_neg (by simp [h])

@[simp] theorem made_write : (history.write write).made = history.made := by
  rw [History.write]
  split <;> rfl

theorem made_foldl_write (writes : List AttributeWrite) :
    (writes.foldl History.write history).made = history.made := by
  induction writes generalizing history with
  | nil => rfl
  | cons first rest ih => rw [List.foldl_cons, ih, made_write]

theorem foldl_write_of_none {writes : List AttributeWrite}
    (h : ∀ write ∈ writes, history.origin? write.id = none) :
    writes.foldl History.write history = history := by
  induction writes with
  | nil => rfl
  | cons first rest ih =>
    obtain ⟨hfirst, hrest⟩ := List.forall_mem_cons.mp h
    rw [List.foldl_cons, write_of_none hfirst]
    exact ih hrest

/-- Whatever a step does, all that was made before stays what it was. -/
theorem prefix_note (history : History) (step : Growth) :
    history.made <+: (history.note step).made := by
  rw [note, made_foldl_write]
  cases step.makes? with
  | none => exact List.prefix_rfl
  | some origin => exact history.prefix_make origin

theorem origin?_note {step : Growth} {origin : Option Origin} (hm : step.makes? = some origin)
    (h : history.made.length < NodeId.limit) :
    (history.note step).origin? ⟨history.made.length⟩ = origin := by
  rw [origin?, note, made_foldl_write, hm, Option.elim_some, make_of_room h,
    List.getElem?_concat_length]
  rfl

theorem prefix_foldl_note (history : History) (steps : List Growth) :
    history.made <+: (steps.foldl note history).made := by
  induction steps generalizing history with
  | nil => exact List.prefix_rfl
  | cons step steps ih => exact (history.prefix_note step).trans (ih _)

theorem writesTo_concat_self (h : write.id = id) :
    writesTo { history with writes := history.writes ++ [write] } id =
      history.writesTo id ++ [write] := by
  rw [writesTo, List.filter_append, List.filter_cons_of_pos (by simpa using h)]
  rfl

theorem writesTo_concat_of_ne (h : id ≠ write.id) :
    writesTo { history with writes := history.writes ++ [write] } id = history.writesTo id := by
  rw [writesTo, List.filter_append, List.filter_cons_of_neg (by simpa using h.symm)]
  exact List.append_nil _

theorem ofSteps_append (steps more : List Growth) :
    ofSteps (steps ++ more) = more.foldl note (ofSteps steps) :=
  List.foldl_append

end History

end TreeQuery
