import TreeQuery.Proofs.Query.Run
import TreeQuery.Proofs.Tree.Append

/-! Queries before and after a successful append.
Whether a node satisfies a selector depends on what lies to its left and above it, and an append
only adds to this below the child that it links. -/
namespace TreeQuery

namespace Setting

section Carry

variable {setting other : Setting} {P : NodeId → Prop} (h : setting.tree.Carries other.tree P)
  (ho : other.options = setting.options)

include h ho

theorem LeftFound.carry (hs : ∀ {step id}, setting.Satisfies step id → other.Satisfies step id)
    {left : List Step} {combinator : Combinator} {id : NodeId} (hid : P id)
    (hl : setting.LeftFound left combinator id) : other.LeftFound left combinator id := by
  induction left generalizing combinator id with
  | nil => trivial
  | cons step left ih =>
    obtain ⟨next, hj, hsat, hl⟩ := hl
    obtain ⟨hj, hnext⟩ := Joined.carry h ho hid hj
    exact ⟨next, hj, hs hsat, ih hnext hl⟩

theorem selectorHolds_carry (f : setting.tree.Forest setting.tree.children)
    (g : other.tree.Forest other.tree.children)
    (hs : ∀ {step id}, setting.Satisfies step id → other.Satisfies step id)
    {selector : Selector} {id : NodeId} (hid : P id)
    (hm : setting.selectorHolds true selector id = true) :
    other.selectorHolds true selector id = true := by
  obtain ⟨hsat, hl⟩ := (selectorHolds_iff f).mp hm
  exact (selectorHolds_iff g).mpr ⟨hs hsat, LeftFound.carry h ho hs hid hl⟩

end Carry

/-- Two settings with the same options for a tree before and after an append, with pseudo rules that
answer alike for both. -/
structure Appended (setting after : Setting) (child : NodeId) : Prop where
  tree : setting.tree.Appended after.tree child
  options : after.options = setting.options
  pseudoClass : ∀ id, after.pseudo.classHolds after.tree id =
    setting.pseudo.classHolds setting.tree id
  pseudoElement : ∀ id, after.pseudo.elementHolds after.tree id =
    setting.pseudo.elementHolds setting.tree id

namespace Appended

variable {setting after : Setting} {child id : NodeId} (h : setting.Appended after child)

include h

theorem stepHolds_eq (checkTag : Bool) (step : Step) (id : NodeId) :
    after.stepHolds checkTag step id = setting.stepHolds checkTag step id := by
  simp only [stepHolds, tagHolds, idHolds, classesHold, testsHold, pseudosHold, h.options,
    h.tree.tagName?_eq, h.tree.attribute?_eq, h.pseudoClass, h.pseudoElement]

theorem satisfies_iff {step : Step} : after.Satisfies step id ↔ setting.Satisfies step id := by
  rw [← stepHolds_iff, ← stepHolds_iff, h.stepHolds_eq]

theorem selectorHolds_grows {selector : Selector}
    (hm : setting.selectorHolds true selector id = true) :
    after.selectorHolds true selector id = true :=
  selectorHolds_carry h.tree.grows h.options h.tree.forest h.tree.grown h.satisfies_iff.mpr trivial hm

theorem selectorHolds_eq (selector : Selector) (hid : ¬ setting.tree.Inside id child) :
    after.selectorHolds true selector id = setting.selectorHolds true selector id := by
  rw [Bool.eq_iff_iff]
  refine ⟨fun hm => ?_, h.selectorHolds_grows⟩
  exact selectorHolds_carry h.tree.keeps h.options.symm h.tree.grown h.tree.forest
    h.satisfies_iff.mp hid hm

theorem listHolds_grows {list : SelectorList} (hm : setting.listHolds list id = true) :
    after.listHolds list id = true := by
  obtain ⟨member, hmem, hm⟩ := List.any_eq_true.mp hm
  exact List.any_eq_true.mpr ⟨member, hmem, h.selectorHolds_grows hm⟩

theorem listHolds_eq (list : SelectorList) (hid : ¬ setting.tree.Inside id child) :
    after.listHolds list id = setting.listHolds list id :=
  congrArg list.members.any (funext fun member => h.selectorHolds_eq member hid)

/-- What is found below the document node after the append, less the nodes of the subtree, is what
was found before, in the same order. -/
theorem toList_narrow (list : SelectorList) : (setting.narrow [.root] list).toList =
    (after.narrow [.root] list).toList.filter fun id => ¬ setting.tree.InSubtree id child := by
  rw [Setting.toList_narrow, Setting.toList_narrow, ← eraseDups_filter, List.filter_flatMap]
  refine congrArg List.eraseDups (List.flatMap_congr fun member _ => ?_)
  rw [List.flatMap_singleton, List.flatMap_singleton, List.filter_comm,
    h.tree.descendants_filter h.tree.root_outside]
  refine List.filter_congr fun id hid => (h.selectorHolds_eq member ?_).symm
  exact h.tree.outside_of_below h.tree.root_outside (h.tree.forest.mem_descendants_iff.mp hid).2

end Appended

end Setting

namespace Session

/-- An append changes nothing for the nodes outside the subtree that it links, and inside it only
adds to what satisfies a list. A query of the old tree finds what one of the new tree finds outside
this subtree, in the same order. -/
theorem findList_of_append {tree after : Tree} (hr : tree.Reachable) {parent child id : NodeId}
    (ha : tree.append parent child = (.ok id, after)) {list : SelectorList}
    (hl : list.supported = .ok ()) (options : Options) :
    let old : Setting := ⟨tree, options, .always⟩
    let new : Setting := ⟨after, options, .always⟩
    (∀ id, ¬ tree.InSubtree id child → new.listHolds list id = old.listHolds list id) ∧
      (∀ id, tree.InSubtree id child → old.listHolds list id = true →
        new.listHolds list id = true) ∧
      (∀ id, after.InSubtree id child ↔ tree.InSubtree id child) ∧
      ∃ front back,
        (((ofRoot tree).withOptions options).withPseudo .always).findList list = .ok front ∧
        (((ofRoot after).withOptions options).withPseudo .always).findList list = .ok back ∧
        front.found.toList = back.found.toList.filter fun id => ¬ tree.InSubtree id child := by
  intro old new
  have htree : tree.Appended after child := hr.appended ha
  have h : old.Appended new child := ⟨htree, rfl, fun _ => rfl, fun _ => rfl⟩
  obtain ⟨front, hf, hfront⟩ := findList_ofRoot tree options .always hl
  obtain ⟨back, hb, hback⟩ := findList_ofRoot after options .always hl
  refine ⟨fun id hid => ?_, fun id _ hm => h.listHolds_grows hm, fun id => htree.inSubtree_iff,
    front, back, hf, hb, ?_⟩
  · exact h.listHolds_eq list (mt htree.forest.inSubtree_iff.mpr hid)
  · rw [hfront, hback]
    exact h.toList_narrow list

/-- Two elements are built apart, one inside the other, and then put below a third one: they are all
that is new among what a query finds. -/
theorem findList_of_linked :
    let tree := Tree.grow [.appendElement .root "a" [], .createElement "b",
      .appendElement ⟨2⟩ "c" []]
    let after := (tree.append ⟨1⟩ ⟨2⟩).2
    let list : SelectorList := .any
    tree.Reachable ∧ tree.append ⟨1⟩ ⟨2⟩ = (.ok ⟨2⟩, after) ∧ list.supported = .ok () ∧
      ∃ back, (((ofRoot after).withOptions {}).withPseudo .always).findList list = .ok back ∧
        back.found.toList = [⟨1⟩, ⟨2⟩, ⟨3⟩] ∧
        (back.found.toList.filter fun id => ¬ tree.InSubtree id ⟨2⟩) = [⟨1⟩] := by
  intro tree after list
  have hr : tree.Reachable := ⟨_, rfl⟩
  have ha : tree.append ⟨1⟩ ⟨2⟩ = (.ok ⟨2⟩, after) := rfl
  have hl : list.supported = .ok () := rfl
  obtain ⟨-, -, -, front, back, hf, hb, hfound⟩ := findList_of_append hr ha hl {}
  obtain ⟨other, ho, hfront⟩ := findList_ofRoot tree {} .always hl
  cases hf.symm.trans ho
  obtain ⟨other, ho, hback⟩ := findList_ofRoot after {} .always hl
  cases hb.symm.trans ho
  refine ⟨hr, ha, hl, back, hb, ?_, ?_⟩
  · rw [hback, Setting.toList_narrow]
    decide +kernel
  · rw [← hfound, hfront, Setting.toList_narrow]
    decide +kernel

end Session

end TreeQuery
