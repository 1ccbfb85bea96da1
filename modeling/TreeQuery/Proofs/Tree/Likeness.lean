import Mathlib.Data.List.Nodup
import Mathlib.Data.Set.Function
import TreeQuery.Proofs.Tree.Preorder

/-! Documents with the same elements in the same places.
Each element of one has a twin in the other. Handles, the numbers of names, texts, comments and
nodes outside the document may differ; the walks among elements lead from twin to twin. -/
namespace TreeQuery

namespace Tree

variable {tree other : Tree} {twin : NodeId → NodeId} {id p c left right : NodeId}

/-- The elements of the document. -/
structure Shown (tree : Tree) (id : NodeId) : Prop where
  element : tree.isElement id = true
  below : tree.Below id .root

/-- The document node or an element of the document: where the walks of a query go. -/
def Placed (tree : Tree) (id : NodeId) : Prop := id = .root ∨ tree.Shown id

/-- The elements of two documents correspond one to one, with their tags, their attributes, their
parents and the order among siblings. -/
structure Alike (tree other : Tree) (twin : NodeId → NodeId) : Prop where
  shown : Set.BijOn twin {id | tree.Shown id} {id | other.Shown id}
  root : twin .root = .root
  tag : ∀ {id}, tree.Shown id → other.tagName? (twin id) = tree.tagName? id
  attributes : ∀ {id}, tree.Shown id → ∀ name,
    other.attribute? (twin id) name = tree.attribute? id name
  parent : ∀ {id}, tree.Shown id → other.parent? (twin id) = (tree.parent? id).map twin
  order : ∀ {left right}, tree.Shown left → tree.Shown right → tree.Earlier left right →
    other.Earlier (twin left) (twin right)

theorem Shown.exists_parent? (h : tree.Shown id) : ∃ p, tree.parent? id = some p := by
  obtain ⟨p, hp, -⟩ := Relation.TransGen.head'_iff.mp h.below
  exact ⟨p, hp⟩

theorem Placed.shown_of_below (h : tree.Placed p) (hb : tree.Below id p)
    (he : tree.isElement id = true) : tree.Shown id := by
  rcases h with rfl | h
  · exact ⟨he, hb⟩
  · exact ⟨he, hb.trans h.below⟩

namespace Forest

variable (f : Forest tree tree.children)

include f

theorem root_not_element : tree.isElement .root = false := by
  obtain ⟨node, hn⟩ := Option.isSome_iff_exists.mp f.ground
  unfold isElement element?
  rw [hn, Option.bind_some, Node.element?, (f.document hn).mpr rfl]
  rfl

theorem shown_iff : tree.Shown id ↔ id ∈ tree.descendants .root :=
  ⟨fun h => f.mem_descendants_iff.mpr ⟨h.element, h.below⟩,
    fun h => ⟨(f.mem_descendants_iff.mp h).1, (f.mem_descendants_iff.mp h).2⟩⟩

theorem shown_of_placed (h : tree.Placed id) (he : tree.isElement id = true) : tree.Shown id := by
  rcases h with rfl | h
  · exact absurd (f.root_not_element.symm.trans he) nofun
  · exact h

theorem placed_of_parent? (h : tree.Shown id) (hp : tree.parent? id = some p) :
    tree.Placed p := by
  obtain ⟨q, hq, hb⟩ := Relation.TransGen.head'_iff.mp h.below
  cases hp.symm.trans hq
  rcases Relation.ReflTransGen.cases_head hb with rfl | ⟨top, ht, hb⟩
  · exact .inl rfl
  · exact .inr ⟨f.isElement_of_between hp ht, .head' ht hb⟩

theorem shown_of_child (h : tree.Placed p) (hc : c ∈ tree.elementChildren p) : tree.Shown c := by
  obtain ⟨hp, he⟩ := f.mem_elementChildren.mp hc
  exact h.shown_of_below (.of_parent? hp) he

theorem shown_of_sibling (h : tree.Shown id)
    (hc : c ∈ tree.elementsBefore id ∨ c ∈ tree.elementsAfter id) : tree.Shown c := by
  obtain ⟨p, hp⟩ := h.exists_parent?
  obtain ⟨front, back, hs⟩ := f.split_element hp h.element
  refine f.shown_of_child (f.placed_of_parent? h hp) ?_
  rw [f.elementsBefore_eq hs, f.elementsAfter_eq hs, List.mem_reverse] at hc
  rw [hs, List.mem_append, List.mem_cons]
  exact hc.imp_right .inr

theorem carries_placed : tree.Carries tree tree.Placed := by
  have hsibling : ∀ {left right}, tree.Placed right → tree.Earlier left right →
      tree.Placed left := by
    intro left right hr he
    obtain ⟨p, -, hp⟩ := f.exists_parent?_of_earlier he
    rcases hr with rfl | hr
    · exact absurd (f.top.symm.trans hp) nofun
    · exact .inr (f.shown_of_sibling hr (.inl ((f.mem_elementsBefore_iff hr.element).mpr he)))
  constructor
  case parent =>
    intro id p h hp
    rcases h with rfl | h
    · exact absurd (f.top.symm.trans hp) nofun
    · exact ⟨hp, f.placed_of_parent? h hp⟩
  case adjacent => exact fun hr ha => ⟨ha, hsibling hr ha.earlier⟩
  case earlier => exact fun hr he => ⟨he, hsibling hr he⟩

theorem placed_of_below (h : tree.Shown id) (hb : tree.Below id p) : tree.Placed p :=
  (f.carries_placed.below (.inr h) hb).2

theorem bijOn_shown (g : Forest other other.children)
    (hd : other.descendants .root = (tree.descendants .root).map twin) :
    Set.BijOn twin {id | tree.Shown id} {id | other.Shown id} := by
  refine ⟨fun id hs => ?_, fun left hl right hr => ?_, fun id hs => ?_⟩
  · refine g.shown_iff.mpr ?_
    rw [hd]
    exact List.mem_map_of_mem (f.shown_iff.mp hs)
  · have hn := g.descendants_nodup .root
    rw [hd] at hn
    exact List.inj_on_of_nodup_map hn (f.shown_iff.mp hl) (f.shown_iff.mp hr)
  · have hm := g.shown_iff.mp hs
    rw [hd] at hm
    obtain ⟨other, ho, he⟩ := List.mem_map.mp hm
    exact ⟨other, f.shown_iff.mpr ho, he⟩

theorem alike_of_descendants (g : Forest other other.children) (hroot : twin .root = .root)
    (hd : other.descendants .root = (tree.descendants .root).map twin)
    (hn : other.names = tree.names)
    (he : ∀ id ∈ tree.descendants .root, other.element? (twin id) = tree.element? id)
    (hp : ∀ id ∈ tree.descendants .root, other.parent? (twin id) = (tree.parent? id).map twin)
    (hb : ∀ id ∈ tree.descendants .root,
      other.elementsBefore (twin id) = (tree.elementsBefore id).map twin) :
    tree.Alike other twin := by
  constructor
  case shown => exact f.bijOn_shown g hd
  case root => exact hroot
  case tag =>
    intro id hs
    rw [tagName?, tagName?, he id (f.shown_iff.mp hs)]
    simp only [resolve, hn]
  case attributes =>
    intro id hs name
    rw [attribute?, attribute?, he id (f.shown_iff.mp hs), hn]
  case parent => exact fun hs => hp _ (f.shown_iff.mp hs)
  case order =>
    intro left right _ hs hl
    have hright : other.isElement (twin right) = true := by
      rw [isElement, he right (f.shown_iff.mp hs)]
      exact hs.element
    refine (g.mem_elementsBefore_iff hright).mp ?_
    rw [hb right (f.shown_iff.mp hs)]
    exact List.mem_map_of_mem ((f.mem_elementsBefore_iff hs.element).mpr hl)

end Forest

namespace Alike

variable (h : tree.Alike other twin) (f : Forest tree tree.children)
  (g : Forest other other.children)

include h

theorem placed (hp : tree.Placed id) : other.Placed (twin id) := by
  rcases hp with rfl | hp
  · exact .inl h.root
  · exact .inr (h.shown.mapsTo hp)

include g

theorem twin_ne_root (hs : tree.Shown id) : twin id ≠ .root := by
  intro hr
  have he := (h.shown.mapsTo hs).element
  rw [hr, g.root_not_element] at he
  cases he

theorem twin_inj (hl : tree.Placed left) (hr : tree.Placed right) (he : twin left = twin right) :
    left = right := by
  rcases hl with rfl | hl <;> rcases hr with rfl | hr
  · rfl
  · exact absurd (he.symm.trans h.root) (h.twin_ne_root g hr)
  · exact absurd (he.trans h.root) (h.twin_ne_root g hl)
  · exact h.shown.injOn hl hr he

include f

theorem isElement_eq (hp : tree.Placed p) : other.isElement (twin p) = tree.isElement p := by
  rcases hp with rfl | hp
  · rw [h.root, g.root_not_element, f.root_not_element]
  · rw [(h.shown.mapsTo hp).element, hp.element]

theorem mem_elementChildren_iff (hp : tree.Placed p) {c : NodeId} :
    c ∈ other.elementChildren (twin p) ↔ c ∈ (tree.elementChildren p).map twin := by
  rw [List.mem_map]
  constructor
  · intro hc
    obtain ⟨d, hd, rfl⟩ := h.shown.surjOn (g.shown_of_child (h.placed hp) hc)
    have hq := g.parent?_of_mem hc
    rw [h.parent hd] at hq
    obtain ⟨q, hq, he⟩ := Option.map_eq_some_iff.mp hq
    cases h.twin_inj g (f.placed_of_parent? hd hq) hp he
    exact ⟨d, f.mem_elementChildren.mpr ⟨hq, hd.element⟩, rfl⟩
  · rintro ⟨d, hd, rfl⟩
    have hs := f.shown_of_child hp hd
    rw [g.mem_elementChildren, h.parent hs, f.parent?_of_mem hd]
    exact ⟨rfl, (h.shown.mapsTo hs).element⟩

theorem elementChildren_eq (hp : tree.Placed p) :
    other.elementChildren (twin p) = (tree.elementChildren p).map twin := by
  have hshown : ∀ c ∈ tree.elementChildren p, tree.Shown c := fun _ => f.shown_of_child hp
  have hnodup : ((tree.elementChildren p).map twin).Nodup :=
    .map_on (fun c hc d hd => h.shown.injOn (hshown c hc) (hshown d hd))
      (f.elementChildren_nodup p)
  have hsorted : ((tree.elementChildren p).map twin).Pairwise other.Earlier := by
    rw [List.pairwise_map]
    exact (tree.pairwise_earlier p).imp_of_mem fun hl hr =>
      h.order (hshown _ hl) (hshown _ hr)
  have hperm : (other.elementChildren (twin p)).Perm ((tree.elementChildren p).map twin) :=
    (List.perm_ext_iff_of_nodup (g.elementChildren_nodup _) hnodup).mpr fun _ =>
      h.mem_elementChildren_iff f g hp
  refine hperm.eq_of_pairwise (fun _ _ _ _ hl hr => ?_) (other.pairwise_earlier _) hsorted
  exact absurd hr (g.not_earlier hl)

theorem firstElementChild?_eq (hp : tree.Placed p) :
    other.firstElementChild? (twin p) = (tree.firstElementChild? p).map twin := by
  rw [g.firstElementChild?_eq, f.firstElementChild?_eq, h.elementChildren_eq f g hp, List.head?_map]

theorem split_element (hs : tree.Shown id) : ∃ p front back,
    tree.elementChildren p = front ++ id :: back ∧
      other.elementChildren (twin p) = front.map twin ++ twin id :: back.map twin := by
  obtain ⟨p, hp⟩ := hs.exists_parent?
  obtain ⟨front, back, hc⟩ := f.split_element hp hs.element
  refine ⟨p, front, back, hc, ?_⟩
  rw [h.elementChildren_eq f g (f.placed_of_parent? hs hp), hc, List.map_append, List.map_cons]

theorem prevElement?_eq (hs : tree.Shown id) :
    other.prevElement? (twin id) = (tree.prevElement? id).map twin := by
  obtain ⟨p, front, back, ht, ho⟩ := h.split_element f g hs
  rw [((g.chain_elements _).along ho).1, ((f.chain_elements _).along ht).1, List.getLast?_map]

theorem nextElement?_eq (hs : tree.Shown id) :
    other.nextElement? (twin id) = (tree.nextElement? id).map twin := by
  obtain ⟨p, front, back, ht, ho⟩ := h.split_element f g hs
  rw [((g.chain_elements _).along ho).2, ((f.chain_elements _).along ht).2, List.head?_map]

theorem elementsBefore_eq (hs : tree.Shown id) :
    other.elementsBefore (twin id) = (tree.elementsBefore id).map twin := by
  obtain ⟨p, front, back, ht, ho⟩ := h.split_element f g hs
  rw [g.elementsBefore_eq ho, f.elementsBefore_eq ht, List.map_reverse]

theorem elementsAfter_eq (hs : tree.Shown id) :
    other.elementsAfter (twin id) = (tree.elementsAfter id).map twin := by
  obtain ⟨p, front, back, ht, ho⟩ := h.split_element f g hs
  rw [g.elementsAfter_eq ho, f.elementsAfter_eq ht]

theorem ancestors_eq (hs : tree.Shown id) :
    other.ancestors (twin id) = (tree.ancestors id).map twin := by
  have hroute : Route other.parent? ((tree.parent? id).map twin) ((tree.ancestors id).map twin) := by
    refine (f.route_ancestors id).map fun top ht => ?_
    rcases f.placed_of_below hs (f.mem_ancestors_iff.mp ht) with rfl | hs
    · rw [h.root, g.top, f.top, Option.map_none]
    · exact h.parent hs
  rw [← h.parent hs] at hroute
  exact (g.route_ancestors _).unique hroute

/-- The descendants of a twin are the twins of the descendants, in document order. -/
theorem descendants_eq (hp : tree.Placed p) :
    other.descendants (twin p) = (tree.descendants p).map twin := by
  refine f.induct_children (P := fun p => tree.Placed p →
    other.descendants (twin p) = (tree.descendants p).map twin) ?_ p hp
  intro p ih hp
  rw [g.descendants_eq_flatMap, f.descendants_eq_flatMap, h.elementChildren_eq f g hp,
    List.flatMap_map, List.map_flatMap]
  refine List.flatMap_congr fun c hc => ?_
  rw [ih c (f.parent?_of_mem hc) (.inr (f.shown_of_child hp hc)), List.map_cons]

end Alike

end Tree

end TreeQuery
