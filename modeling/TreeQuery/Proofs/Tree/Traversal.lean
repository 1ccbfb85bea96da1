import TreeQuery.Proofs.Tree.Preorder

/-! The walks to the elements below a node and to the nodes above it, link by link.
Here no walk has a bound: each relation holds of a result only if the links lead to it and the walk
ends there by itself. On a reachable tree the bounded walks give exactly these results. -/
namespace TreeQuery

/-- What a search along a link comes to: the first place that is wanted, or nothing where the link
ends. -/
inductive Sought (next : NodeId → Option NodeId) (wanted : NodeId → Bool) :
    Option NodeId → Option NodeId → Prop where
  | stop : Sought next wanted none none
  | found {id} : wanted id = true → Sought next wanted (some id) (some id)
  | pass {id result} : wanted id = false → Sought next wanted (next id) result →
      Sought next wanted (some id) result

theorem Sought.unique {next : NodeId → Option NodeId} {wanted : NodeId → Bool}
    {start result other : Option NodeId} (h : Sought next wanted start result)
    (k : Sought next wanted start other) : result = other := by
  induction h with
  | stop =>
    cases k
    rfl
  | found hw =>
    cases k with
    | found => rfl
    | pass kw _ => cases hw.symm.trans kw
  | pass hw _ ih =>
    cases k with
    | found kw => cases hw.symm.trans kw
    | pass _ k => exact ih k

namespace Route

variable {next : NodeId → Option NodeId} {start : Option NodeId} {route : List NodeId}

/-- Along a route that ends, the search comes to the first wanted place on it. -/
theorem sought (h : Route next start route) (wanted : NodeId → Bool) :
    Sought next wanted start (route.find? wanted) := by
  induction h with
  | stop => exact .stop
  | @move id route _ ih =>
    rw [List.find?_cons]
    cases hw : wanted id with
    | true => exact .found hw
    | false => exact .pass hw ih

theorem last (h : Route next start route) {id : NodeId} (hl : route.getLast? = some id) :
    next id = none := by
  obtain ⟨front, rfl⟩ := List.getLast?_eq_some_iff.mp hl
  have hr := h.drop
  cases hr with
  | move hr => exact hr.head.symm

end Route

namespace Tree

/-- The search for the element after a node among its siblings. -/
abbrev NextElement (tree : Tree) (id : NodeId) (result : Option NodeId) : Prop :=
  Sought tree.nextSibling? tree.isElement (tree.nextSibling? id) result

abbrev FirstElement (tree : Tree) (id : NodeId) (result : Option NodeId) : Prop :=
  Sought tree.nextSibling? tree.isElement (tree.firstChild? id) result

/-- Where a walk inside a scope comes to behind a node and all below it. It climbs from parent to
parent until an element follows, and never past the scope. -/
inductive GoesPast (tree : Tree) (scope : NodeId) : NodeId → Option NodeId → Prop where
  | scope : GoesPast tree scope scope none
  | sibling {id next} : id ≠ scope → tree.NextElement id (some next) →
      GoesPast tree scope id (some next)
  | climb {id p result} : id ≠ scope → tree.NextElement id none → tree.parent? id = some p →
      GoesPast tree scope p result → GoesPast tree scope id result
  | top {id} : id ≠ scope → tree.NextElement id none → tree.parent? id = none →
      GoesPast tree scope id none

/-- Where the walk inside a scope comes to after a node: down if it can, else past the node. -/
inductive GoesOn (tree : Tree) (scope : NodeId) : NodeId → Option NodeId → Prop where
  | down {id child} : tree.FirstElement id (some child) → GoesOn tree scope id (some child)
  | past {id result} : tree.FirstElement id none → tree.GoesPast scope id result →
      GoesOn tree scope id result

/-- All that the walk inside a scope visits from where it stands to its end. -/
inductive Visits (tree : Tree) (scope : NodeId) : Option NodeId → List NodeId → Prop where
  | stop : Visits tree scope none []
  | move {id next rest} : tree.GoesOn scope id next → Visits tree scope next rest →
      Visits tree scope (some id) (id :: rest)

/-- The whole walk below a node, which starts at its first element child. -/
def Walked (tree : Tree) (scope : NodeId) (listing : List NodeId) : Prop :=
  ∃ first, tree.FirstElement scope first ∧ tree.Visits scope first listing

section Unique

variable {tree : Tree} {scope id : NodeId} {result other : Option NodeId}

theorem GoesPast.unique (h : tree.GoesPast scope id result) (k : tree.GoesPast scope id other) :
    result = other := by
  induction h with
  | scope =>
    cases k with
    | scope => rfl
    | sibling hne | climb hne | top hne => exact absurd rfl hne
  | sibling hne hs =>
    cases k with
    | scope => exact absurd rfl hne
    | sibling _ ks => exact hs.unique ks
    | climb _ ks | top _ ks => cases hs.unique ks
  | climb hne hs hp _ ih =>
    cases k with
    | scope => exact absurd rfl hne
    | sibling _ ks => cases hs.unique ks
    | climb _ _ kp k =>
      cases hp.symm.trans kp
      exact ih k
    | top _ _ kp => cases hp.symm.trans kp
  | top hne hs hp =>
    cases k with
    | scope => rfl
    | sibling _ ks => exact hs.unique ks
    | climb _ _ kp => cases hp.symm.trans kp
    | top => rfl

theorem GoesOn.unique (h : tree.GoesOn scope id result) (k : tree.GoesOn scope id other) :
    result = other := by
  cases h with
  | down hs =>
    cases k with
    | down ks => exact hs.unique ks
    | past ks => cases hs.unique ks
  | past hs h =>
    cases k with
    | down ks => cases hs.unique ks
    | past _ k => exact h.unique k

theorem Visits.unique {start : Option NodeId} {listing others : List NodeId}
    (h : tree.Visits scope start listing) (k : tree.Visits scope start others) :
    listing = others := by
  induction h generalizing others with
  | stop =>
    cases k
    rfl
  | move hn _ ih =>
    cases k with
    | move kn k =>
      cases hn.unique kn
      rw [ih k]

theorem Walked.unique {listing others : List NodeId} (h : tree.Walked scope listing)
    (k : tree.Walked scope others) : listing = others := by
  obtain ⟨first, hs, h⟩ := h
  obtain ⟨other, ks, k⟩ := k
  cases hs.unique ks
  exact h.unique k

end Unique

variable {tree : Tree} {scope : NodeId}

namespace Forest

variable (f : Forest tree tree.children)

include f

theorem induct_parent {P : NodeId → Prop}
    (step : ∀ id, (∀ p, tree.parent? id = some p → P p) → P id) (id : NodeId) : P id := by
  have hr := f.route_ancestors id
  generalize tree.ancestors id = line at hr
  induction line generalizing id with
  | nil =>
    apply step id
    intro p hp
    rw [hp] at hr
    cases hr
  | cons a line ih =>
    apply step id
    intro p hp
    rw [hp] at hr
    cases hr with
    | move hr => exact ih a hr

theorem firstElement (id : NodeId) : tree.FirstElement id (tree.firstElementChild? id) := by
  rw [FirstElement, f.firstElementChild?_eq, f.first, elementChildren, List.head?_filter]
  exact (f.chain id).route.sought tree.isElement

theorem nextElement (id : NodeId) : tree.NextElement id (tree.nextElement? id) := by
  rw [NextElement]
  cases hp : tree.parent? id with
  | none =>
    rw [f.nextElement?_of_top hp, (f.alone hp).2]
    exact .stop
  | some p =>
    obtain ⟨front, back, hs⟩ := List.append_of_mem (f.parent.mp hp)
    have hback : tree.children p = (front ++ [id]) ++ back := by
      rw [hs, List.append_assoc, List.singleton_append]
    rw [f.nextElement?_of_children hs, ((f.chain p).along hs).2, List.head?_filter]
    exact ((f.chain p).route_next hback).sought tree.isElement

theorem goesPast (scope id : NodeId) :
    tree.GoesPast scope id (tree.elementPast? scope tree.size id) := by
  refine f.induct_parent
    (P := fun id => tree.GoesPast scope id (tree.elementPast? scope tree.size id)) ?_ id
  intro id ih
  have hs := f.nextElement id
  by_cases he : id = scope
  · have hstop : tree.elementPast? scope tree.size id = none := by
      cases tree.size <;> simp [elementPast?, he]
    rw [hstop, he]
    exact .scope
  · cases hp : tree.parent? id with
    | none =>
      have hnext := f.nextElement?_of_top hp
      have hstop : tree.elementPast? scope tree.size id = none := by
        cases tree.size <;> simp [elementPast?, hnext, hp]
      rw [hnext] at hs
      rw [hstop]
      exact .top he hs hp
    | some p =>
      rw [f.elementPast?_eq hp he]
      cases hnext : tree.nextElement? id with
      | none =>
        rw [hnext] at hs
        exact .climb he hs hp (ih p hp)
      | some next =>
        rw [hnext] at hs
        exact .sibling he hs

theorem goesOn (scope id : NodeId) : tree.GoesOn scope id (tree.successor? scope id) := by
  have hs := f.firstElement id
  rw [successor?]
  cases hc : tree.firstElementChild? id with
  | none =>
    rw [hc] at hs
    exact .past hs (f.goesPast scope id)
  | some child =>
    rw [hc] at hs
    exact .down hs

theorem visits {start : Option NodeId} {listing : List NodeId}
    (h : Route (tree.successor? scope) start listing) : tree.Visits scope start listing := by
  induction h with
  | stop => exact .stop
  | @move id _ _ ih => exact .move (f.goesOn scope id) ih

theorem walked (scope : NodeId) : tree.Walked scope (tree.descendants scope) := by
  obtain ⟨listing, hl⟩ := f.exists_listing scope
  refine ⟨tree.firstElementChild? scope, f.firstElement scope, ?_⟩
  rw [f.descendants_eq hl]
  exact f.visits (f.route_descendants hl)

end Forest

/-- The walk below a node ends, and lists the elements below it, each once and in document order. -/
structure Traversed (tree : Tree) (scope : NodeId) (listing : List NodeId) : Prop where
  walk : ∀ others, tree.Walked scope others ↔ others = listing
  members : ∀ id, id ∈ listing ↔ tree.isElement id = true ∧ scope ∈ tree.ancestors id
  once : listing.Nodup
  proper : scope ∉ listing
  order : listing = (tree.elementChildren scope).flatMap fun child => child :: tree.descendants child

/-- The walk upward from a node ends at a node without a parent, and meets no node twice. -/
structure Climbed (tree : Tree) (id : NodeId) (line : List NodeId) : Prop where
  walk : ∀ others, Route tree.parent? (tree.parent? id) others ↔ others = line
  once : (id :: line).Nodup
  top : ∀ top, (id :: line).getLast? = some top → tree.parent? top = none

namespace Forest

variable (f : Forest tree tree.children)

include f

theorem traversed (scope : NodeId) : tree.Traversed scope (tree.descendants scope) := by
  have hw := f.walked scope
  constructor
  case walk =>
    refine fun others => ⟨fun h => h.unique hw, ?_⟩
    rintro rfl
    exact hw
  case members =>
    intro id
    rw [f.mem_descendants_iff, f.mem_ancestors_iff]
  case once => exact f.descendants_nodup scope
  case proper => exact fun hm => f.not_below_self scope (f.mem_descendants_iff.mp hm).2
  case order => exact f.descendants_eq_flatMap scope

theorem climbed (id : NodeId) : tree.Climbed id (tree.ancestors id) := by
  have hr := f.route_ancestors id
  constructor
  case walk =>
    refine fun others => ⟨fun h => h.unique hr, ?_⟩
    rintro rfl
    exact hr
  case once => exact (Route.move hr).nodup
  case top => exact fun _ hl => (Route.move hr).last hl

end Forest

/-- From every handle, whether a node has it or not, both walks end and list what they should. -/
theorem Reachable.walks_end (h : tree.Reachable) (id : NodeId) :
    tree.Traversed id (tree.descendants id) ∧ tree.Climbed id (tree.ancestors id) :=
  ⟨h.forest.traversed id, h.forest.climbed id⟩

/-- Elements with texts between them, of which the last one is followed outside the scope only. -/
theorem walks_end_inside :
    let tree := Tree.grow [.appendElement .root "a" [], .appendText ⟨1⟩ "text",
      .appendElement ⟨1⟩ "b" [], .appendElement ⟨3⟩ "c" [], .appendText ⟨1⟩ "text",
      .appendElement ⟨1⟩ "d" [], .appendElement .root "e" []]
    tree.Reachable ∧ tree.Traversed ⟨1⟩ [⟨3⟩, ⟨4⟩, ⟨6⟩] ∧ tree.Climbed ⟨4⟩ [⟨3⟩, ⟨1⟩, .root] := by
  intro tree
  have hr : tree.Reachable := ⟨_, rfl⟩
  exact ⟨hr, (hr.walks_end ⟨1⟩).1, (hr.walks_end ⟨4⟩).2⟩

end Tree

end TreeQuery
