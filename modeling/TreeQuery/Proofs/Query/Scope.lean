import TreeQuery.Proofs.Query.Order

/-! Searching within what has been found, against searching once with a longer selector.
A search within goes down from nodes that satisfy a list; the descendant combinator looks up for a
node that does. Both come to the elements that have such a node above them. -/
namespace TreeQuery

def Selector.concat (selector : Selector) (step : Step) : Selector :=
  ⟨selector.steps ++ [step], List.append_ne_nil_of_right_ne_nil _ (List.cons_ne_nil _ _)⟩

/-- The list for what a step describes, anywhere below what a member of `list` describes. -/
def SelectorList.below (list : SelectorList) (step : Step) : SelectorList :=
  ⟨list.members.map fun member => member.concat (step.joinedBy .descendant)⟩

theorem Selector.target_concat (selector : Selector) (step : Step) :
    (selector.concat step).target = step := List.getLast_concat

theorem Selector.left_concat (selector : Selector) (step : Step) :
    (selector.concat step).left = selector.target :: selector.left := by
  have hsteps : selector.steps.reverse = selector.target :: selector.left := by
    rw [selector.steps_eq, List.reverse_concat, List.reverse_reverse]
  rw [← hsteps, left, concat, List.dropLast_concat]

theorem SelectorList.Searchable.below {list : SelectorList} (h : list.Searchable) {step : Step}
    (hs : step.Searchable) : (list.below step).Searchable := by
  intro member hm
  obtain ⟨front, hf, rfl⟩ := List.mem_map.mp hm
  refine List.forall_mem_append.mpr ⟨h front hf, List.forall_mem_singleton.mpr ?_⟩
  exact ⟨hs.element, hs.ns, hs.tests⟩

namespace Setting

variable {setting : Setting} {list : SelectorList} {selector : Selector} {step : Step}
  {id left right : NodeId}

theorem satisfies_joinedBy {combinator : Combinator} :
    setting.Satisfies (step.joinedBy combinator) id ↔ setting.Satisfies step id :=
  ⟨fun h => ⟨h.tag, h.ident, h.classes, h.tests, h.pseudoClasses, h.pseudoElements⟩,
    fun h => ⟨h.tag, h.ident, h.classes, h.tests, h.pseudoClasses, h.pseudoElements⟩⟩

theorem joined_descendant : setting.Joined .descendant left right ↔
    setting.tree.Below right left := by
  unfold Joined
  cases setting.options.combinators <;> rfl

variable (f : setting.tree.Forest setting.tree.children)

include f

theorem selectorHolds_concat_iff :
    setting.selectorHolds true (selector.concat (step.joinedBy .descendant)) id = true ↔
      setting.Satisfies step id ∧
        ∃ other, setting.tree.Below id other ∧ setting.selectorHolds true selector other = true := by
  rw [selectorHolds_iff f, selector.target_concat, selector.left_concat, satisfies_joinedBy]
  refine and_congr_right' (exists_congr fun other => ?_)
  exact and_congr joined_descendant (selectorHolds_iff f).symm

theorem listHolds_below_iff : setting.listHolds (list.below step) id = true ↔
    setting.Satisfies step id ∧
      ∃ other, setting.tree.Below id other ∧ setting.listHolds list other = true := by
  simp only [listHolds, SelectorList.below, List.any_map, List.any_eq_true, Function.comp_apply,
    selectorHolds_concat_iff f]
  constructor
  · rintro ⟨member, hm, hs, other, hb, ho⟩
    exact ⟨hs, other, hb, member, hm, ho⟩
  · rintro ⟨hs, other, hb, member, hm, ho⟩
    exact ⟨member, hm, hs, other, hb, ho⟩

theorem listHolds_single_iff {h : [step] ≠ []} :
    setting.listHolds ⟨[⟨[step], h⟩]⟩ id = true ↔ setting.Satisfies step id := by
  rw [listHolds, List.any_cons, List.any_nil, Bool.or_false, selectorHolds_iff f]
  exact and_iff_left trivial

/-- Going down from what satisfies the list and looking up for it lead to the same elements. -/
theorem mem_narrow_narrow_iff {h : [step] ≠ []} :
    id ∈ (setting.narrow (setting.narrow [.root] list).toList ⟨[⟨[step], h⟩]⟩).toList ↔
      id ∈ (setting.narrow [.root] (list.below step)).toList := by
  simp only [mem_narrow_iff_below f, listHolds_single_iff f, listHolds_below_iff f,
    List.mem_singleton, exists_eq_left]
  constructor
  · rintro ⟨⟨other, ⟨ho, hl⟩, hb⟩, hs⟩
    exact ⟨hb.trans ho, hs, other, hb, hl⟩
  · rintro ⟨hr, hs, other, hb, hl⟩
    have hother : setting.tree.Shown other :=
      f.shown_of_placed (f.placed_of_below ⟨hs.isElement, hr⟩ hb) (isElement_of_listHolds hl)
    exact ⟨⟨other, ⟨hother.below, hl⟩, hb⟩, hs⟩

theorem narrow_narrow_eq {h : [step] ≠ []} (hl : list.members.length = 1) :
    (setting.narrow (setting.narrow [.root] list).toList ⟨[⟨[step], h⟩]⟩).toList =
      (setting.narrow [.root] (list.below step)).toList := by
  have hroot : [NodeId.root].Pairwise setting.tree.Precedes := List.pairwise_singleton _ _
  have hbelow : (list.below step).members.length = 1 := by
    rw [SelectorList.below, List.length_map, hl]
  refine f.eq_of_precedes ?_ (pairwise_narrow f hroot hbelow) fun id => mem_narrow_narrow_iff f
  exact pairwise_narrow f (pairwise_narrow f hroot hl) rfl

end Setting

namespace Session

/-- A search within what a list has found, for a single step, finds what one search for the list
with that step below it finds; where the list has one member, also in the same order. -/
theorem within_finds_below {tree : Tree} (hr : tree.Reachable) (options : Options)
    (pseudo : PseudoRules) {list : SelectorList} (hl : list.supported = .ok ()) {text : String}
    {step : Step} {h : [step] ≠ []} (hp : SelectorList.parse text = .ok ⟨[⟨[step], h⟩]⟩) :
    let start := ((ofRoot tree).withOptions options).withPseudo pseudo
    ∃ outer inner joined, start.findList list = .ok outer ∧ outer.within text = .ok inner ∧
      start.findList (list.below step) = .ok joined ∧
      (∀ id, id ∈ inner.found.toList ↔ id ∈ joined.found.toList) ∧
      (list.members.length = 1 → inner.found.toList = joined.found.toList) := by
  intro start
  have hstep : step.Searchable :=
    (regular_of_parse hp).searchable _ List.mem_cons_self _ List.mem_cons_self
  have hbelow : (list.below step).supported = .ok () :=
    SelectorList.supported_eq_ok_iff.mpr ((SelectorList.supported_eq_ok_iff.mp hl).below hstep)
  obtain ⟨outer, hf, ho⟩ := findList_ofRoot tree options pseudo hl
  obtain ⟨inner, hw, hi⟩ := outer.within_of_parse hp
  obtain ⟨joined, hj, hfound⟩ := findList_ofRoot tree options pseudo hbelow
  have hsetting : outer.setting = ⟨tree, options, pseudo⟩ := setting_of_findList hf
  rw [hsetting, ho] at hi
  refine ⟨outer, inner, joined, hf, hw, hj, fun id => ?_, fun hone => ?_⟩
  · rw [hi, hfound]
    exact Setting.mem_narrow_narrow_iff hr.forest
  · rw [hi, hfound]
    exact Setting.narrow_narrow_eq hr.forest hone

/-- Three elements inside one another: the search within comes to the innermost one from both of
those above it, and one search for `* *` finds it and the one around it. -/
theorem within_of_nested :
    let tree := Tree.grow [.appendElement .root "a" [], .appendElement ⟨1⟩ "a" [],
      .appendElement ⟨2⟩ "a" []]
    let list : SelectorList := .any
    tree.Reachable ∧ list.supported = .ok () ∧ SelectorList.parse list.text = .ok list ∧
      ∃ joined, (((ofRoot tree).withOptions {}).withPseudo .always).findList (list.below .any) =
        .ok joined ∧ joined.found.toList = [⟨2⟩, ⟨3⟩] := by
  intro tree list
  have hr : tree.Reachable := ⟨_, rfl⟩
  have hl : list.supported = .ok () := rfl
  have hp : SelectorList.parse list.text = .ok list := parse_text_any
  obtain ⟨outer, inner, joined, hf, hw, hj, -, heq⟩ := within_finds_below hr {} .always hl hp
  refine ⟨hr, hl, hp, joined, hj, ?_⟩
  have houter : outer.found.toList = [⟨1⟩, ⟨2⟩, ⟨3⟩] := by
    obtain ⟨other, ho, hfound⟩ := findList_ofRoot tree {} .always hl
    cases hf.symm.trans ho
    rw [hfound, Setting.toList_narrow]
    rfl
  obtain ⟨other, ho, hi⟩ := outer.within_of_parse hp
  cases hw.symm.trans ho
  rw [← heq rfl, hi, setting_of_findList hf, houter, Setting.toList_narrow]
  rfl

end Session

end TreeQuery
