import TreeQuery.Proofs.Tree.Kin

/-! The elements below a node, in document order.
The walk from one element to its successor lists each child followed by all below it. -/
namespace TreeQuery

namespace Tree

variable {tree : Tree} {id p c scope : NodeId}

/-- Elements side by side, each followed by the elements below it. -/
inductive Listing (tree : Tree) : List NodeId → List NodeId → Prop where
  | nil : Listing tree [] []
  | cons {c ids below after} : Listing tree (tree.elementChildren c) below →
      Listing tree ids after → Listing tree (c :: ids) (c :: (below ++ after))

theorem Listing.mem {ids listing : List NodeId} (h : Listing tree ids listing) :
    ∀ id ∈ listing, id ∈ ids ∨ ∃ p, id ∈ tree.elementChildren p := by
  induction h with
  | nil => exact fun _ hm => absurd hm List.not_mem_nil
  | @cons c ids below after _ _ ihBelow ihAfter =>
    intro id hm
    rcases List.mem_cons.mp hm with rfl | hm
    · exact .inl List.mem_cons_self
    · rcases List.mem_append.mp hm with hm | hm
      · exact .inr ((ihBelow id hm).elim (fun h => ⟨c, h⟩) fun h => h)
      · exact (ihAfter id hm).imp_left (List.mem_cons_of_mem c)

namespace Forest

variable (f : Forest tree tree.children)

include f

theorem line_lt_size (h : tree.parent? c = some p) :
    (tree.ancestors p).length + 1 < tree.size := by
  have hr : Route tree.parent? (some c) (c :: p :: tree.ancestors p) := by
    apply Route.move
    rw [h]
    exact .move (f.route_ancestors p)
  apply length_le_size hr.nodup
  intro a ha
  rcases List.mem_cons.mp ha with rfl | ha
  · exact contains_of_parent? h
  · rw [← f.ancestors_of_parent? h] at ha
    exact f.contains_ancestor ha

/-- What holds of a node whenever it holds of its children holds of every node. -/
theorem induct_children {P : NodeId → Prop}
    (step : ∀ id, (∀ c, tree.parent? c = some id → P c) → P id) (id : NodeId) : P id := by
  have main : ∀ n id, tree.size ≤ n + (tree.ancestors id).length → P id := by
    intro n
    induction n with
    | zero =>
      intro id hn
      apply step id
      intro c hc
      have := f.line_lt_size hc
      omega
    | succ n ih =>
      intro id hn
      refine step id fun c hc => ih c ?_
      rw [f.ancestors_of_parent? hc, List.length_cons]
      omega
  exact main tree.size id (Nat.le_add_right _ _)

theorem firstElementChild?_eq (id : NodeId) :
    tree.firstElementChild? id = (tree.elementChildren id).head? := by
  rw [firstElementChild?, f.first, elementChildren, List.head?_filter]
  exact seek_of_route (f.chain id).route fun a ha => f.contains_kid ha

theorem elementPast?_succ {bound : Nat} (h : (tree.ancestors id).length < bound) :
    tree.elementPast? scope (bound + 1) id = tree.elementPast? scope bound id := by
  induction bound generalizing id with
  | zero => exact absurd h (Nat.not_lt_zero _)
  | succ bound ih =>
    rw [elementPast?, elementPast?]
    cases hp : tree.parent? id with
    | none => cases tree.nextElement? id <;> rfl
    | some p =>
      rw [f.ancestors_of_parent? hp] at h
      have hb := ih (Nat.lt_of_succ_lt_succ h)
      cases tree.nextElement? id with
      | none => exact congrArg (fun rest => if id = scope then none else rest) hb
      | some next => rfl

theorem elementPast?_eq (hp : tree.parent? c = some p) (hne : c ≠ scope) :
    tree.elementPast? scope tree.size c =
      (tree.nextElement? c).or (tree.elementPast? scope tree.size p) := by
  have hline := f.line_lt_size hp
  cases hs : tree.size with
  | zero => omega
  | succ bound =>
    rw [hs] at hline
    rw [elementPast?, if_neg hne, hp, f.elementPast?_succ (Nat.lt_of_succ_lt_succ hline)]
    cases tree.nextElement? c <;> rfl

theorem successor?_eq (id : NodeId) : tree.successor? scope id =
    (tree.elementChildren id).head?.or (tree.elementPast? scope tree.size id) := by
  rw [successor?, f.firstElementChild?_eq]
  cases (tree.elementChildren id).head? <;> rfl

/-- Inside the scope the successors run through a listing and then go on past the parent. -/
theorem route_listing {ids listing front rest : List NodeId} (h : Listing tree ids listing)
    (hs : tree.elementChildren p = front ++ ids) (hp : p = scope ∨ tree.Below p scope)
    (hr : Route (tree.successor? scope) (tree.elementPast? scope tree.size p) rest) :
    Route (tree.successor? scope) (ids.head?.or (tree.elementPast? scope tree.size p))
      (listing ++ rest) := by
  induction h generalizing p front rest with
  | nil => exact hr
  | @cons c ids below after _ _ ihBelow ihAfter =>
    have hc : tree.parent? c = some p := by
      refine f.parent?_of_mem ?_
      rw [hs]
      exact List.mem_append_right front List.mem_cons_self
    have hb : tree.Below c scope := by
      rcases hp with rfl | hp
      · exact .of_parent? hc
      · exact .step hc hp
    have hne : c ≠ scope := fun he => f.not_below_self scope (he ▸ hb)
    have hids : tree.elementChildren p = (front ++ [c]) ++ ids := by
      rw [hs, List.append_assoc, List.singleton_append]
    have hafter := ihAfter hids hp hr
    have hpast : tree.elementPast? scope tree.size c =
        ids.head?.or (tree.elementPast? scope tree.size p) := by
      rw [f.elementPast?_eq hc hne, ((f.chain_elements p).along hs).2]
    rw [← hpast] at hafter
    have hbelow := ihBelow (List.nil_append _).symm (.inr hb) hafter
    rw [← f.successor?_eq c] at hbelow
    rw [List.cons_append, List.append_assoc]
    exact .move hbelow

theorem exists_listing (id : NodeId) : ∃ listing, Listing tree (tree.elementChildren id) listing := by
  refine f.induct_children (P := fun id => ∃ listing, Listing tree (tree.elementChildren id) listing)
    ?_ id
  intro id step
  have hids : ∀ ids : List NodeId, (∀ c ∈ ids, tree.parent? c = some id) →
      ∃ listing, Listing tree ids listing := by
    intro ids
    induction ids with
    | nil => exact fun _ => ⟨[], .nil⟩
    | cons c ids ih =>
      intro h
      obtain ⟨below, hb⟩ := step c (h c List.mem_cons_self)
      obtain ⟨after, ha⟩ := ih fun d hd => h d (List.mem_cons_of_mem c hd)
      exact ⟨c :: (below ++ after), .cons hb ha⟩
  exact hids _ fun c hc => f.parent?_of_mem hc

theorem route_descendants {listing : List NodeId}
    (h : Listing tree (tree.elementChildren scope) listing) :
    Route (tree.successor? scope) (tree.firstElementChild? scope) listing := by
  have hpast : tree.elementPast? scope tree.size scope = none := by
    cases tree.size with
    | zero => rfl
    | succ bound => rw [elementPast?, if_pos rfl]
  have hstop : Route (tree.successor? scope) (tree.elementPast? scope tree.size scope) [] := by
    rw [hpast]
    exact .stop
  have hr := f.route_listing h (List.nil_append _).symm (.inl rfl) hstop
  rw [hpast, Option.or_none, List.append_nil, ← f.firstElementChild?_eq] at hr
  exact hr

theorem descendants_eq {listing : List NodeId}
    (h : Listing tree (tree.elementChildren scope) listing) : tree.descendants scope = listing := by
  apply follow_of_route (f.route_descendants h)
  intro id hm
  rcases h.mem id hm with hc | ⟨p, hc⟩
  · exact contains_of_parent? (f.parent?_of_mem hc)
  · exact contains_of_parent? (f.parent?_of_mem hc)

theorem descendants_nodup (scope : NodeId) : (tree.descendants scope).Nodup := by
  obtain ⟨listing, h⟩ := f.exists_listing scope
  rw [f.descendants_eq h]
  exact (f.route_descendants h).nodup

theorem descendants_eq_flatMap (scope : NodeId) :
    tree.descendants scope =
      (tree.elementChildren scope).flatMap fun child => child :: tree.descendants child := by
  have hids : ∀ {ids listing}, Listing tree ids listing →
      listing = ids.flatMap fun child => child :: tree.descendants child := by
    intro ids listing h
    induction h with
    | nil => rfl
    | cons hb _ _ ihAfter => rw [List.flatMap_cons, f.descendants_eq hb, ← ihAfter, List.cons_append]
  obtain ⟨listing, h⟩ := f.exists_listing scope
  rw [f.descendants_eq h]
  exact hids h

theorem isElement_of_between {q : NodeId} (hp : tree.parent? c = some p)
    (hq : tree.parent? p = some q) : tree.isElement p = true := by
  obtain ⟨node, hn, hc⟩ := f.holder hp
  have hd : node.content ≠ .document := by
    intro hd
    have hr := (f.document hn).mp hd
    rw [hr, f.top] at hq
    exact absurd hq nofun
  unfold isElement element?
  rw [hn, Option.bind_some]
  obtain ⟨content, _, _, _, _, _⟩ := node
  cases content with
  | document => exact absurd rfl hd
  | element element => rfl
  | text => exact absurd hc nofun
  | comment => exact absurd hc nofun

theorem mem_descendants_iff : id ∈ tree.descendants scope ↔
    tree.isElement id = true ∧ tree.Below id scope := by
  constructor
  · intro hm
    refine f.induct_children
      (P := fun scope => id ∈ tree.descendants scope → tree.isElement id = true ∧ tree.Below id scope)
      ?_ scope hm
    intro scope step hm
    rw [f.descendants_eq_flatMap] at hm
    obtain ⟨c, hc, hm⟩ := List.mem_flatMap.mp hm
    obtain ⟨hp, he⟩ := f.mem_elementChildren.mp hc
    rcases List.mem_cons.mp hm with rfl | hm
    · exact ⟨he, .of_parent? hp⟩
    · obtain ⟨he, hb⟩ := step c hp hm
      exact ⟨he, hb.tail hp⟩
  · rintro ⟨he, hb⟩
    induction hb with
    | single hp =>
      rw [f.descendants_eq_flatMap]
      exact List.mem_flatMap.mpr
        ⟨id, f.mem_elementChildren.mpr ⟨hp, he⟩, List.mem_cons_self⟩
    | @tail c scope hc hp ih =>
      rw [f.descendants_eq_flatMap]
      have hcc : tree.isElement c = true := by
        cases hc with
        | single h => exact f.isElement_of_between h hp
        | tail _ h => exact f.isElement_of_between h hp
      exact List.mem_flatMap.mpr
        ⟨c, f.mem_elementChildren.mpr ⟨hp, hcc⟩, List.mem_cons_of_mem c ih⟩

end Forest

end Tree

end TreeQuery
