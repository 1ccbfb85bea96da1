import TreeQuery.Proofs.Tree.Order

/-! Trees before and after a successful append.
A subtree that stood alone becomes the last one among its new siblings. What leads away from a node
in the old tree leads the same way in the new one; from a node outside the subtree nothing leads
elsewhere than before. -/
namespace TreeQuery

namespace Tree

variable {tree after : Tree} {parent child id top scope p left right : NodeId}

/-- A node belongs to the subtree of another if it is that node or lies below it. -/
def InSubtree (tree : Tree) (id top : NodeId) : Prop := top ∈ id :: tree.ancestors id

instance (tree : Tree) (id top : NodeId) : Decidable (tree.InSubtree id top) :=
  inferInstanceAs (Decidable (top ∈ id :: tree.ancestors id))

/-- All that an append leaves as it was, and the one list of element children that may grow. -/
structure Appended (tree after : Tree) (child : NodeId) : Prop where
  forest : tree.Forest tree.children
  grown : after.Forest after.children
  names : after.names = tree.names
  element : ∀ id, after.element? id = tree.element? id
  detached : tree.parent? child = none
  notRoot : child ≠ .root
  parent : ∀ {id}, id ≠ child → after.parent? id = tree.parent? id
  children : ∀ p, ∃ extra, after.elementChildren p = tree.elementChildren p ++ extra ∧
    ∀ c ∈ extra, c = child

namespace Forest

variable (f : Forest tree tree.children)

include f

theorem inSubtree_iff : tree.InSubtree id top ↔ tree.Inside id top := by
  rw [InSubtree, List.mem_cons, f.mem_ancestors_iff]
  exact Relation.reflTransGen_iff_eq_or_transGen.symm

theorem elementChildren_link (h : tree.checkAppend parent child = .ok ())
    (he : (tree.link parent child).isElement = tree.isElement) (p : NodeId) :
    ∃ extra, (tree.link parent child).elementChildren p = tree.elementChildren p ++ extra ∧
      ∀ c ∈ extra, c = child := by
  rw [elementChildren, elementChildren, he, (f.link h).children_eq]
  by_cases hp : p = parent
  · subst hp
    refine ⟨[child].filter tree.isElement, ?_, fun c hc => ?_⟩
    · rw [adopt, Function.update_self, List.filter_append]
    · exact List.mem_singleton.mp (List.mem_filter.mp hc).1
  · refine ⟨[], ?_, fun _ hc => absurd hc List.not_mem_nil⟩
    rw [adopt, Function.update_of_ne hp, List.append_nil]

theorem appended_link (h : tree.checkAppend parent child = .ok ()) :
    tree.Appended (tree.link parent child) child := by
  obtain ⟨-, ⟨node, hn, hnp⟩, hroot, -, -⟩ := checkAppend_eq_ok.mp h
  have helement := tree.element?_link parent child
  have hgrown := f.link h
  constructor
  case forest => exact f
  case grown =>
    rw [hgrown.children_eq]
    exact hgrown
  case names => exact tree.names_link parent child
  case element => exact helement
  case detached => rw [parent?, hn, Option.bind_some, hnp]
  case notRoot => exact hroot
  case parent =>
    intro id hne
    rw [parent?_link (contains_of_node? hn), if_neg (Ne.symm hne)]
  case children =>
    refine f.elementChildren_link h (funext fun id => ?_)
    rw [isElement, isElement, helement]

end Forest

theorem Reachable.appended (hr : tree.Reachable)
    (h : tree.append parent child = (.ok id, after)) : tree.Appended after child := by
  rw [append] at h
  split at h
  · cases h
  · rename_i hc
    cases h
    exact hr.forest.appended_link hc

namespace Appended

variable (h : tree.Appended after child)

include h

theorem tagName?_eq (id : NodeId) : after.tagName? id = tree.tagName? id := by
  simp only [tagName?, resolve, h.element, h.names]

theorem attribute?_eq (id : NodeId) : after.attribute? id = tree.attribute? id := by
  funext name
  rw [attribute?, attribute?, h.element, h.names]

theorem split_children {front back : List NodeId} (hne : right ≠ child)
    (hs : after.elementChildren p = front ++ right :: back) :
    ∃ back, tree.elementChildren p = front ++ right :: back := by
  obtain ⟨extra, hextra, hc⟩ := h.children p
  rw [hextra] at hs
  have hnew : right ∉ extra := fun hm => hne (hc right hm)
  rcases List.append_eq_append_iff.mp hs with ⟨middle, -, he⟩ | ⟨middle, hk, he⟩
  · rw [he] at hnew
    exact absurd (List.mem_append_right middle List.mem_cons_self) hnew
  · cases middle with
    | nil =>
      rw [List.nil_append] at he
      rw [← he] at hnew
      exact absurd List.mem_cons_self hnew
    | cons first middle =>
      cases (List.cons.inj he).1
      exact ⟨middle, hk⟩

theorem ne_of_parent? (hp : tree.parent? id = some p) : id ≠ child := by
  rintro rfl
  exact absurd (h.detached.symm.trans hp) nofun

theorem grows : tree.Carries after fun _ => True := by
  constructor
  case parent => exact fun _ hp => ⟨(h.parent (h.ne_of_parent? hp)).trans hp, trivial⟩
  case adjacent =>
    rintro left right - ⟨p, front, back, hs⟩
    obtain ⟨extra, hextra, -⟩ := h.children p
    refine ⟨⟨p, front, back ++ extra, ?_⟩, trivial⟩
    rw [hextra, hs, List.append_assoc, List.cons_append, List.cons_append]
  case earlier =>
    rintro left right - ⟨p, front, middle, back, hs⟩
    obtain ⟨extra, hextra, -⟩ := h.children p
    refine ⟨⟨p, front, middle, back ++ extra, ?_⟩, trivial⟩
    rw [hextra, hs, List.append_assoc, List.cons_append, List.append_assoc, List.cons_append]

theorem root_outside : ¬ tree.Inside .root child := by
  intro hin
  rcases Relation.ReflTransGen.cases_head hin with he | ⟨p, hp, -⟩
  · exact h.notRoot he.symm
  · exact absurd (h.forest.top.symm.trans hp) nofun

theorem outside_of_child (hid : ¬ tree.Inside p child) (hp : tree.parent? id = some p) :
    ¬ tree.Inside id child :=
  fun hin => hid (hin.parent (h.ne_of_parent? hp) hp)

theorem outside_of_earlier (hright : ¬ tree.Inside right child) (he : tree.Earlier left right) :
    ¬ tree.Inside left child := by
  obtain ⟨p, hl, hr⟩ := h.forest.exists_parent?_of_earlier he
  exact h.outside_of_child (mt (.head hr) hright) hl

/-- From outside the subtree the links of the new tree lead nowhere but where they led before. -/
theorem keeps : after.Carries tree fun id => ¬ tree.Inside id child := by
  have hne : ∀ {id}, ¬ tree.Inside id child → id ≠ child := by
    rintro id hid rfl
    exact hid (.self tree id)
  constructor
  case parent =>
    intro id p hid hp
    rw [h.parent (hne hid)] at hp
    exact ⟨hp, mt (.head hp) hid⟩
  case adjacent =>
    rintro left right hright ⟨p, front, back, hs⟩
    have hplace : after.elementChildren p = (front ++ [left]) ++ right :: back := by
      rw [hs, List.append_assoc, List.singleton_append]
    obtain ⟨back, hs⟩ := h.split_children (hne hright) hplace
    rw [List.append_assoc, List.singleton_append] at hs
    have ha : tree.Adjacent left right := ⟨p, front, back, hs⟩
    exact ⟨ha, h.outside_of_earlier hright ha.earlier⟩
  case earlier =>
    rintro left right hright ⟨p, front, middle, back, hs⟩
    have hplace : after.elementChildren p = (front ++ left :: middle) ++ right :: back := by
      rw [hs, List.append_assoc, List.cons_append]
    obtain ⟨back, hs⟩ := h.split_children (hne hright) hplace
    rw [List.append_assoc, List.cons_append] at hs
    have he : tree.Earlier left right := ⟨p, front, middle, back, hs⟩
    exact ⟨he, h.outside_of_earlier hright he⟩

theorem inside_iff : after.Inside id child ↔ tree.Inside id child := by
  constructor
  · intro hin
    by_contra hid
    rcases Relation.reflTransGen_iff_eq_or_transGen.mp hin with rfl | hb
    · exact hid (.self tree child)
    · exact hid (h.keeps.below hid hb).1.inside
  · intro hin
    rcases Relation.reflTransGen_iff_eq_or_transGen.mp hin with rfl | hb
    · exact .self after child
    · exact (h.grows.below trivial hb).1.inside

theorem inSubtree_iff : after.InSubtree id child ↔ tree.InSubtree id child := by
  rw [h.grown.inSubtree_iff, h.forest.inSubtree_iff, h.inside_iff]

theorem outside_of_below (hs : ¬ tree.Inside scope child) (hb : tree.Below id scope) :
    ¬ tree.Inside id child := by
  induction hb using Relation.TransGen.head_induction_on with
  | single hp => exact h.outside_of_child hs hp
  | head hp _ ih => exact h.outside_of_child ih hp

/-- Without the subtree, the descendants of a node outside it are listed as they were before. -/
theorem descendants_filter (hs : ¬ tree.Inside scope child) :
    (after.descendants scope).filter (fun id => ¬ tree.InSubtree id child) =
      tree.descendants scope := by
  refine h.forest.induct_children (P := fun scope => ¬ tree.Inside scope child →
    (after.descendants scope).filter (fun id => ¬ tree.InSubtree id child) =
      tree.descendants scope) ?_ scope hs
  intro scope ih hs
  obtain ⟨extra, hextra, hc⟩ := h.children scope
  rw [h.grown.descendants_eq_flatMap, h.forest.descendants_eq_flatMap, hextra,
    List.flatMap_append, List.filter_append]
  have hnew : (extra.flatMap fun c => c :: after.descendants c).filter
      (fun id => ¬ tree.InSubtree id child) = [] := by
    refine List.filter_eq_nil_iff.mpr fun id hid => ?_
    obtain ⟨c, hm, hid⟩ := List.mem_flatMap.mp hid
    cases hc c hm
    have hin := h.inside_iff.mp (h.grown.inside_of_mem hid)
    simpa using h.forest.inSubtree_iff.mpr hin
  rw [hnew, List.append_nil, List.filter_flatMap]
  refine List.flatMap_congr fun c hm => ?_
  have hp := h.forest.parent?_of_mem hm
  have hout := h.outside_of_child hs hp
  have hkeep : decide (¬ tree.InSubtree c child) = true :=
    decide_eq_true (mt h.forest.inSubtree_iff.mp hout)
  rw [List.filter_cons, if_pos hkeep, ih c hp hout]

end Appended

end Tree

end TreeQuery
