import TreeQuery.Proofs.Tree.Forest

/-! What the walks of a tree find, said through its lists of children.
Ancestors are those above by the links to parents; the element siblings of an element stand beside
it in the list of element children of its parent. -/
namespace TreeQuery

namespace Tree

variable {tree : Tree} {id p c left right : NodeId}

def Below (tree : Tree) (id top : NodeId) : Prop :=
  Relation.TransGen (fun child parent => tree.parent? child = some parent) id top

/-- Two elements with the same parent and no element between them. -/
def Adjacent (tree : Tree) (left right : NodeId) : Prop :=
  ∃ p front back, tree.elementChildren p = front ++ left :: right :: back

/-- Two elements with the same parent, one somewhere before the other. -/
def Earlier (tree : Tree) (left right : NodeId) : Prop :=
  ∃ p front middle back, tree.elementChildren p = front ++ left :: (middle ++ right :: back)

theorem Adjacent.earlier (h : tree.Adjacent left right) : tree.Earlier left right := by
  obtain ⟨p, front, back, hs⟩ := h
  exact ⟨p, front, [], back, hs⟩

theorem pairwise_earlier (tree : Tree) (p : NodeId) :
    (tree.elementChildren p).Pairwise tree.Earlier := by
  have main : ∀ back front, tree.elementChildren p = front ++ back →
      back.Pairwise tree.Earlier := by
    intro back
    induction back with
    | nil => exact fun _ _ => .nil
    | cons left back ih =>
      intro front hs
      refine .cons (fun right hr => ?_) (ih (front ++ [left]) ?_)
      · obtain ⟨middle, back, rfl⟩ := List.append_of_mem hr
        exact ⟨p, front, middle, back, hs⟩
      · rw [hs, List.append_assoc, List.singleton_append]
  exact main _ [] rfl

theorem Below.of_parent? (h : tree.parent? id = some p) : tree.Below id p := .single h

theorem Below.step {top : NodeId} (h : tree.parent? id = some p) (k : tree.Below p top) :
    tree.Below id top := .head h k

/-- What is to the left of a node of `P` or above it in one tree is so in the other tree too, and
it is in `P`. -/
structure Carries (tree other : Tree) (P : NodeId → Prop) : Prop where
  parent : ∀ {id p}, P id → tree.parent? id = some p → other.parent? id = some p ∧ P p
  adjacent : ∀ {left right}, P right → tree.Adjacent left right →
    other.Adjacent left right ∧ P left
  earlier : ∀ {left right}, P right → tree.Earlier left right →
    other.Earlier left right ∧ P left

theorem Carries.below {other : Tree} {P : NodeId → Prop} {top : NodeId} (h : tree.Carries other P)
    (hid : P id) (hb : tree.Below id top) : other.Below id top ∧ P top := by
  induction hb with
  | single hp =>
    obtain ⟨hp, htop⟩ := h.parent hid hp
    exact ⟨.of_parent? hp, htop⟩
  | tail _ hp ih =>
    obtain ⟨hb, hq⟩ := ih
    obtain ⟨hp, htop⟩ := h.parent hq hp
    exact ⟨hb.tail hp, htop⟩

namespace Forest

variable (f : Forest tree tree.children)

include f

theorem ancestors_of_parent? (h : tree.parent? id = some p) :
    tree.ancestors id = p :: tree.ancestors p := by
  have hr := f.route_ancestors id
  rw [h] at hr
  exact hr.unique (.move (f.route_ancestors p))

theorem contains_ancestor (h : p ∈ tree.ancestors id) : tree.contains p = true := by
  rcases (f.route_ancestors id).reached h with hp | ⟨c, hp⟩
  · exact f.contains_of_holds hp
  · exact f.contains_of_holds hp

theorem mem_ancestors_iff {top : NodeId} : top ∈ tree.ancestors id ↔ tree.Below id top := by
  constructor
  · intro hm
    have hr := f.route_ancestors id
    generalize tree.ancestors id = line at hm hr
    induction line generalizing id with
    | nil => exact absurd hm List.not_mem_nil
    | cons p line ih =>
      have hp : tree.parent? id = some p := hr.head.symm
      rcases List.mem_cons.mp hm with rfl | hm
      · exact .single hp
      · rw [hp] at hr
        cases hr with
        | move hr => exact .head hp (ih hm hr)
  · intro h
    induction h using Relation.TransGen.head_induction_on with
    | single hp =>
      rw [f.ancestors_of_parent? hp]
      exact List.mem_cons_self
    | head hp _ ih =>
      rw [f.ancestors_of_parent? hp]
      exact List.mem_cons_of_mem _ ih

theorem not_below_self (id : NodeId) : ¬ tree.Below id id := by
  intro h
  have hn : (id :: tree.ancestors id).Nodup := (Route.move (f.route_ancestors id)).nodup
  exact (List.nodup_cons.mp hn).1 (f.mem_ancestors_iff.mpr h)

theorem parent?_of_mem (h : c ∈ tree.elementChildren p) : tree.parent? c = some p :=
  f.parent.mpr (List.mem_filter.mp h).1

theorem mem_elementChildren : c ∈ tree.elementChildren p ↔
    tree.parent? c = some p ∧ tree.isElement c = true := by
  rw [elementChildren, List.mem_filter, f.parent]

theorem nextElement?_of_children {front back : List NodeId}
    (h : tree.children p = front ++ c :: back) :
    tree.nextElement? c = (back.filter tree.isElement).head? := by
  have hnext : tree.children p = (front ++ [c]) ++ back := by
    rw [h, List.append_assoc, List.singleton_append]
  rw [nextElement?, ((f.chain p).along h).2, List.head?_filter]
  apply seek_of_route ((f.chain p).route_next hnext)
  intro a ha
  apply f.contains_kid (p := p)
  rw [h]
  exact List.mem_append_right front (List.mem_cons_of_mem c ha)

theorem prevElement?_of_children {front back : List NodeId}
    (h : tree.children p = front ++ c :: back) :
    tree.prevElement? c = (front.filter tree.isElement).getLast? := by
  rw [prevElement?, ((f.chain p).along h).1, List.getLast?_filter]
  apply seek_of_route ((f.chain p).route_prev h)
  intro a ha
  apply f.contains_kid (p := p)
  rw [h]
  exact List.mem_append_left _ (List.mem_reverse.mp ha)

theorem chain_elements (p : NodeId) :
    Chained tree.prevElement? tree.nextElement? (tree.elementChildren p) := by
  constructor
  intro front c back h
  obtain ⟨before, rest, hk, rfl, hrest⟩ := List.filter_eq_append_iff.mp h
  obtain ⟨middle, after, rfl, hm, -, rfl⟩ := List.filter_eq_cons_iff.mp hrest
  have hnone : middle.filter tree.isElement = [] := List.filter_eq_nil_iff.mpr hm
  have hs : tree.children p = (before ++ middle) ++ c :: after := by rw [hk, List.append_assoc]
  rw [f.prevElement?_of_children hs, f.nextElement?_of_children hs, List.filter_append, hnone,
    List.append_nil]
  exact ⟨rfl, rfl⟩

theorem elementsBefore_eq {front back : List NodeId}
    (h : tree.elementChildren p = front ++ c :: back) : tree.elementsBefore c = front.reverse := by
  rw [elementsBefore, ((f.chain_elements p).along h).1]
  apply follow_of_route ((f.chain_elements p).route_prev h)
  intro a ha
  refine contains_of_parent? (f.parent?_of_mem (p := p) ?_)
  rw [h]
  exact List.mem_append_left _ (List.mem_reverse.mp ha)

theorem elementsAfter_eq {front back : List NodeId}
    (h : tree.elementChildren p = front ++ c :: back) : tree.elementsAfter c = back := by
  have hnext : tree.elementChildren p = (front ++ [c]) ++ back := by
    rw [h, List.append_assoc, List.singleton_append]
  rw [elementsAfter, ((f.chain_elements p).along h).2]
  apply follow_of_route ((f.chain_elements p).route_next hnext)
  intro a ha
  refine contains_of_parent? (f.parent?_of_mem (p := p) ?_)
  rw [hnext]
  exact List.mem_append_right _ ha

theorem prevElement?_of_top (h : tree.parent? c = none) : tree.prevElement? c = none := by
  rw [prevElement?, (f.alone h).1, seek_eq_find?]
  cases tree.size <;> rfl

theorem nextElement?_of_top (h : tree.parent? c = none) : tree.nextElement? c = none := by
  rw [nextElement?, (f.alone h).2, seek_eq_find?]
  cases tree.size <;> rfl

theorem split_element (hp : tree.parent? c = some p) (he : tree.isElement c = true) :
    ∃ front back, tree.elementChildren p = front ++ c :: back :=
  List.append_of_mem (f.mem_elementChildren.mpr ⟨hp, he⟩)

theorem prevElement?_eq_some_iff (he : tree.isElement right = true) :
    tree.prevElement? right = some left ↔ tree.Adjacent left right := by
  constructor
  · intro h
    cases hp : tree.parent? right with
    | none =>
      rw [f.prevElement?_of_top hp] at h
      exact absurd h nofun
    | some p =>
      have hm : right ∈ tree.elementChildren p := f.mem_elementChildren.mpr ⟨hp, he⟩
      obtain ⟨front, back, hs⟩ := ((f.chain_elements p).prev_eq_some_iff hm).mp h
      exact ⟨p, front, back, hs⟩
  · rintro ⟨p, front, back, hs⟩
    have hm : right ∈ tree.elementChildren p := by simp [hs]
    exact ((f.chain_elements p).prev_eq_some_iff hm).mpr ⟨front, back, hs⟩

theorem mem_elementsBefore_iff (he : tree.isElement right = true) :
    left ∈ tree.elementsBefore right ↔ tree.Earlier left right := by
  constructor
  · intro h
    cases hp : tree.parent? right with
    | none =>
      rw [elementsBefore, f.prevElement?_of_top hp] at h
      cases hs : tree.size <;> rw [hs] at h <;> exact absurd h List.not_mem_nil
    | some p =>
      obtain ⟨front, back, hs⟩ := f.split_element hp he
      rw [f.elementsBefore_eq hs, List.mem_reverse] at h
      obtain ⟨before, middle, rfl⟩ := List.append_of_mem h
      exact ⟨p, before, middle, back, by rw [hs, List.append_assoc, List.cons_append]⟩
  · rintro ⟨p, front, middle, back, hs⟩
    have hright : tree.elementChildren p = (front ++ left :: middle) ++ right :: back := by
      rw [hs, List.append_assoc, List.cons_append]
    rw [f.elementsBefore_eq hright, List.mem_reverse]
    exact List.mem_append_right front List.mem_cons_self

theorem elementChildren_nodup (p : NodeId) : (tree.elementChildren p).Nodup :=
  (f.chain_elements p).route.nodup

theorem exists_parent?_of_earlier (h : tree.Earlier left right) :
    ∃ p, tree.parent? left = some p ∧ tree.parent? right = some p := by
  obtain ⟨p, front, middle, back, hs⟩ := h
  exact ⟨p, f.parent?_of_mem (by simp [hs]), f.parent?_of_mem (by simp [hs])⟩

theorem not_earlier (h : tree.Earlier left right) : ¬ tree.Earlier right left := by
  rintro ⟨q, front, middle, back, hq⟩
  obtain ⟨p, first, between, rest, hp⟩ := h
  have hsame : p = q := by
    have hl : tree.parent? left = some p := f.parent?_of_mem (by simp [hp])
    have hr : tree.parent? left = some q := f.parent?_of_mem (by simp [hq])
    exact Option.some.inj (hl.symm.trans hr)
  subst hsame
  have hbefore := f.elementsBefore_eq hp
  have hleft : tree.elementChildren p = (front ++ right :: middle) ++ left :: back := by
    rw [hq, List.append_assoc, List.cons_append]
  rw [f.elementsBefore_eq hleft, List.reverse_inj] at hbefore
  have hn := f.elementChildren_nodup p
  rw [hp, ← hbefore, List.append_assoc, List.cons_append] at hn
  exact (List.nodup_cons.mp (List.nodup_append.mp hn).2.1).1 (by simp)

end Forest

end Tree

end TreeQuery
