import Mathlib.Data.List.Induction
import Mathlib.Data.List.Perm.Subperm
import TreeQuery.Tree.Walk

/-! Walks that come to an end.
A route lists the places that a link leads to, up to the last one, where it leads nowhere.
A bounded walk with room for the route is the route. -/
namespace TreeQuery

inductive Route (next : NodeId → Option NodeId) : Option NodeId → List NodeId → Prop where
  | stop : Route next none []
  | move {id route} : Route next (next id) route → Route next (some id) (id :: route)

namespace Route

variable {next : NodeId → Option NodeId} {start : Option NodeId} {route : List NodeId}

theorem head (h : Route next start route) : route.head? = start := by
  cases h <;> rfl

theorem unique {other : List NodeId} (h : Route next start route) (k : Route next start other) :
    route = other := by
  induction h generalizing other with
  | stop => cases k; rfl
  | move _ ih =>
    cases k with
    | move k => rw [ih k]

theorem drop {front back : List NodeId} {id : NodeId}
    (h : Route next start (front ++ id :: back)) : Route next (some id) (id :: back) := by
  induction front generalizing start with
  | nil =>
    cases h with
    | move h => exact .move h
  | cons first front ih =>
    cases h with
    | move h => exact ih h

/-- A route that met a node twice would go on in the same way both times, without an end. -/
theorem nodup (h : Route next start route) : route.Nodup := by
  induction h with
  | stop => exact List.nodup_nil
  | @move id route h ih =>
    refine List.nodup_cons.mpr ⟨fun hm => ?_, ih⟩
    obtain ⟨front, back, rfl⟩ := List.append_of_mem hm
    have he := congrArg List.length ((Route.move h).unique h.drop)
    simp only [List.length_cons, List.length_append] at he
    omega

theorem reached {id : NodeId} (h : Route next start route) (hm : id ∈ route) :
    start = some id ∨ ∃ other, next other = some id := by
  induction h with
  | stop => exact absurd hm List.not_mem_nil
  | @move first route _ ih =>
    rcases List.mem_cons.mp hm with rfl | hm
    · exact .inl rfl
    · exact .inr ((ih hm).elim (fun h => ⟨first, h⟩) fun h => h)

theorem congr {other : NodeId → Option NodeId} (h : Route next start route)
    (hs : ∀ id ∈ route, other id = next id) : Route other start route := by
  induction h with
  | stop => exact .stop
  | @move id route _ ih =>
    apply Route.move
    rw [hs id List.mem_cons_self]
    exact ih fun a ha => hs a (List.mem_cons_of_mem id ha)

theorem map {other : NodeId → Option NodeId} {image : NodeId → NodeId} (h : Route next start route)
    (hs : ∀ id ∈ route, other (image id) = (next id).map image) :
    Route other (start.map image) (route.map image) := by
  induction h with
  | stop => exact .stop
  | @move id route _ ih =>
    apply Route.move
    rw [hs id List.mem_cons_self]
    exact ih fun a ha => hs a (List.mem_cons_of_mem id ha)

theorem follow_eq {bound : Nat} (h : Route next start route) (hb : route.length ≤ bound) :
    follow next bound start = route := by
  induction h generalizing bound with
  | stop => cases bound <;> rfl
  | @move id route _ ih =>
    cases bound with
    | zero => exact absurd hb (Nat.not_succ_le_zero _)
    | succ bound => rw [follow, ih (Nat.le_of_succ_le_succ hb)]

end Route

/-- Two links lead along a list of places, one forward and one back, and nowhere at its ends. -/
structure Chained (prev next : NodeId → Option NodeId) (list : List NodeId) : Prop where
  along : ∀ {front id back}, list = front ++ id :: back →
    prev id = front.getLast? ∧ next id = back.head?

namespace Chained

variable {prev next : NodeId → Option NodeId} {list front back : List NodeId}

theorem route_next (h : Chained prev next list) (hl : list = front ++ back) :
    Route next back.head? back := by
  induction back generalizing front with
  | nil => exact .stop
  | cons id back ih =>
    apply Route.move
    rw [(h.along hl).2]
    have hnext : list = (front ++ [id]) ++ back := by
      rw [hl, List.append_assoc, List.singleton_append]
    exact ih hnext

theorem route_prev (h : Chained prev next list) (hl : list = front ++ back) :
    Route prev front.getLast? front.reverse := by
  induction front using List.reverseRec generalizing back with
  | nil => exact .stop
  | append_singleton front id ih =>
    rw [List.append_assoc, List.singleton_append] at hl
    rw [List.getLast?_concat, List.reverse_concat]
    apply Route.move
    rw [(h.along hl).1]
    exact ih hl

theorem route (h : Chained prev next list) : Route next list.head? list :=
  h.route_next (List.nil_append list).symm

theorem prev_eq_some_iff {id other : NodeId} (h : Chained prev next list) (hm : id ∈ list) :
    prev id = some other ↔ ∃ front back, list = front ++ other :: id :: back := by
  constructor
  · intro hp
    obtain ⟨front, back, hs⟩ := List.append_of_mem hm
    rw [(h.along hs).1] at hp
    obtain ⟨front, rfl⟩ := List.getLast?_eq_some_iff.mp hp
    exact ⟨front, back, by rw [hs, List.append_assoc, List.singleton_append]⟩
  · rintro ⟨front, back, hs⟩
    have hid : list = (front ++ [other]) ++ id :: back := by
      rw [hs, List.append_assoc, List.singleton_append]
    rw [(h.along hid).1, List.getLast?_concat]

theorem next_eq_some_iff {id other : NodeId} (h : Chained prev next list) (hm : id ∈ list) :
    next id = some other ↔ ∃ front back, list = front ++ id :: other :: back := by
  constructor
  · intro hn
    obtain ⟨front, back, hs⟩ := List.append_of_mem hm
    rw [(h.along hs).2] at hn
    obtain ⟨back, rfl⟩ := List.head?_eq_some_iff.mp hn
    exact ⟨front, back, hs⟩
  · rintro ⟨front, back, hs⟩
    exact (h.along hs).2

theorem congr {prev' next' : NodeId → Option NodeId} (h : Chained prev next list)
    (hc : ∀ id ∈ list, prev' id = prev id ∧ next' id = next id) : Chained prev' next' list := by
  constructor
  intro front id back hl
  have hm : id ∈ list := by
    rw [hl]
    exact List.mem_append_right front List.mem_cons_self
  obtain ⟨hp, hn⟩ := hc id hm
  rw [hp, hn]
  exact h.along hl

theorem not_last {id other : NodeId} (h : Chained prev next list)
    (hl : list = front ++ id :: other :: back) : list.getLast? ≠ some id := by
  intro hlast
  have hend : list = list.dropLast ++ [id] := (List.dropLast_append_getLast? id hlast).symm
  exact absurd ((h.along hl).2.symm.trans (h.along hend).2) nofun

theorem concat {prev' next' : NodeId → Option NodeId} {new : NodeId} (h : Chained prev next list)
    (hp : prev' new = list.getLast?) (hn : next' new = none)
    (hprev : ∀ id ∈ list, prev' id = prev id)
    (hnext : ∀ id ∈ list, next' id = if list.getLast? = some id then some new else next id) :
    Chained prev' next' (list ++ [new]) := by
  constructor
  intro front id back hl
  rcases List.eq_nil_or_concat back with rfl | ⟨back, last, rfl⟩
  · obtain ⟨rfl, hid⟩ := List.append_inj' hl rfl
    cases hid
    exact ⟨hp, hn⟩
  · rw [List.concat_eq_append, ← List.cons_append, ← List.append_assoc] at hl
    obtain ⟨hk, hid⟩ := List.append_inj' hl rfl
    cases hid
    have hm : id ∈ list := by
      rw [hk]
      exact List.mem_append_right front List.mem_cons_self
    rw [hprev id hm, hnext id hm]
    refine ⟨(h.along hk).1, ?_⟩
    cases back with
    | nil =>
      rw [if_pos (by rw [hk, List.getLast?_concat])]
      rfl
    | cons other back =>
      rw [if_neg (h.not_last hk), (h.along hk).2]
      rfl

end Chained

namespace Tree

variable {tree : Tree}

theorem contains_iff {id : NodeId} : tree.contains id = true ↔ id.index < tree.size := by
  simp [contains, node?, size]

theorem contains_of_node? {id : NodeId} {node : Node} (h : tree.node? id = some node) :
    tree.contains id = true := by
  rw [contains, h, Option.isSome_some]

theorem length_le_size {ids : List NodeId} (hn : ids.Nodup)
    (hv : ∀ id ∈ ids, tree.contains id = true) : ids.length ≤ tree.size := by
  have hi : (ids.map NodeId.index).Nodup :=
    List.Pairwise.map NodeId.index (fun a b hne he => hne (by cases a; cases b; simp_all)) hn
  have hs : ids.map NodeId.index ⊆ List.range tree.size := by
    intro i hm
    obtain ⟨id, hid, rfl⟩ := List.mem_map.mp hm
    exact List.mem_range.mpr (contains_iff.mp (hv id hid))
  simpa using (List.subperm_of_subset hi hs).length_le

theorem follow_of_route {next : NodeId → Option NodeId} {start : Option NodeId}
    {route : List NodeId} (h : Route next start route)
    (hv : ∀ id ∈ route, tree.contains id = true) : follow next tree.size start = route :=
  h.follow_eq (length_le_size h.nodup hv)

theorem seek_of_route {next : NodeId → Option NodeId} {start : Option NodeId}
    {route : List NodeId} {wanted : NodeId → Bool} (h : Route next start route)
    (hv : ∀ id ∈ route, tree.contains id = true) :
    seek next wanted tree.size start = route.find? wanted := by
  rw [seek_eq_find?, follow_of_route h hv]

end Tree

end TreeQuery
