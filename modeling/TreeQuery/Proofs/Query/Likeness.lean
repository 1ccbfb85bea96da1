import TreeQuery.Proofs.Query.Narrow
import TreeQuery.Proofs.Tree.Likeness

/-! Queries of documents that are alike.
A query asks for elements, their tags, their attributes and their places, and nothing else of a
tree. What it finds in one document are therefore the twins of what it finds in the other. -/
namespace TreeQuery

namespace Tree.Alike

variable {tree other : Tree} {twin : NodeId → NodeId} {id : NodeId}
  (h : tree.Alike other twin) (f : tree.Forest tree.children) (g : other.Forest other.children)

include h

theorem all_tags_differ {ids : List NodeId} (hs : tree.Shown id) (hi : ∀ a ∈ ids, tree.Shown a) :
    ((ids.map twin).all fun a => other.tagName? a != other.tagName? (twin id)) =
      ids.all fun a => tree.tagName? a != tree.tagName? id := by
  rw [List.all_map, Bool.eq_iff_iff, List.all_eq_true, List.all_eq_true]
  refine forall₂_congr fun a ha => ?_
  rw [Function.comp_apply, h.tag (hi a ha), h.tag hs]

include f g

theorem firstOfType_eq (hs : tree.Shown id) :
    PseudoRules.firstOfType other (twin id) = PseudoRules.firstOfType tree id := by
  rw [PseudoRules.firstOfType, h.elementsBefore_eq f g hs]
  exact h.all_tags_differ hs fun _ ha => f.shown_of_sibling hs (.inl ha)

theorem lastOfType_eq (hs : tree.Shown id) :
    PseudoRules.lastOfType other (twin id) = PseudoRules.lastOfType tree id := by
  rw [PseudoRules.lastOfType, h.elementsAfter_eq f g hs]
  exact h.all_tags_differ hs fun _ ha => f.shown_of_sibling hs (.inr ha)

theorem below_element_eq (hs : tree.Shown id) :
    (other.parent? (twin id)).any other.isElement = (tree.parent? id).any tree.isElement := by
  obtain ⟨p, hp⟩ := hs.exists_parent?
  rw [h.parent hs, hp, Option.map_some, Option.any_some, Option.any_some]
  exact h.isElement_eq f g (f.placed_of_parent? hs hp)

theorem structuralClass_eq (hs : tree.Shown id) :
    PseudoRules.structuralClass other (twin id) = PseudoRules.structuralClass tree id := by
  funext name
  unfold PseudoRules.structuralClass
  simp only [h.below_element_eq f g hs, h.firstElementChild?_eq f g (.inr hs),
    h.prevElement?_eq f g hs, h.nextElement?_eq f g hs, h.firstOfType_eq f g hs,
    h.lastOfType_eq f g hs, Option.isNone_map]

end Tree.Alike

/-- Two settings for documents that are alike, with the same options and with pseudo rules that
answer for an element as for its twin. -/
structure Setting.Alike (setting mirror : Setting) (twin : NodeId → NodeId) : Prop where
  tree : setting.tree.Alike mirror.tree twin
  forest : setting.tree.Forest setting.tree.children
  mirrored : mirror.tree.Forest mirror.tree.children
  options : mirror.options = setting.options
  pseudoClass : ∀ {id}, setting.tree.Shown id →
    mirror.pseudo.classHolds mirror.tree (twin id) = setting.pseudo.classHolds setting.tree id
  pseudoElement : ∀ {id}, setting.tree.Shown id →
    mirror.pseudo.elementHolds mirror.tree (twin id) = setting.pseudo.elementHolds setting.tree id

theorem Tree.Alike.setting {tree other : Tree} {twin : NodeId → NodeId} (h : tree.Alike other twin)
    (hr : tree.Reachable) (ho : other.Reachable) (options : Options) {pseudo : PseudoRules}
    (hp : pseudo = .always ∨ pseudo = .structural) :
    Setting.Alike ⟨tree, options, pseudo⟩ ⟨other, options, pseudo⟩ twin := by
  constructor
  case tree => exact h
  case forest => exact hr.forest
  case mirrored => exact ho.forest
  case options => rfl
  case pseudoClass =>
    intro id hs
    rcases hp with rfl | rfl
    · rfl
    · exact h.structuralClass_eq hr.forest ho.forest hs
  case pseudoElement =>
    intro id hs
    rcases hp with rfl | rfl <;> rfl

namespace Setting

variable {setting : Setting} {id : NodeId}

theorem placed_of_joined (f : setting.tree.Forest setting.tree.children) {combinator : Combinator}
    {other : NodeId} (hs : setting.tree.Shown id) (hj : setting.Joined combinator other id) :
    setting.tree.Placed other :=
  (Joined.carry f.carries_placed rfl (.inr hs) hj).2

end Setting

namespace Setting.Alike

variable {setting mirror : Setting} {twin : NodeId → NodeId} {id : NodeId}
  (h : setting.Alike mirror twin)

include h

theorem tagHolds_eq (wanted tag : String) :
    mirror.tagHolds wanted tag = setting.tagHolds wanted tag := by
  rw [tagHolds, tagHolds, h.options]

theorem stepHolds_eq (checkTag : Bool) (step : Step) (hs : setting.tree.Shown id) :
    mirror.stepHolds checkTag step (twin id) = setting.stepHolds checkTag step id := by
  simp only [stepHolds, idHolds, classesHold, testsHold, pseudosHold, h.tagHolds_eq, h.tree.tag hs,
    h.tree.attributes hs, h.pseudoClass hs, h.pseudoElement hs]

theorem related_eq (combinator : Combinator) (hs : setting.tree.Shown id) :
    mirror.related combinator (twin id) = (setting.related combinator id).map twin := by
  have hancestors := h.tree.ancestors_eq h.forest h.mirrored hs
  unfold related
  rw [h.options]
  cases setting.options.combinators with
  | asDescendant => exact hancestors
  | asWritten =>
    cases combinator with
    | none => exact hancestors
    | descendant => exact hancestors
    | child =>
      rw [h.tree.parent hs]
      exact Option.toList_map
    | nextSibling =>
      rw [h.tree.prevElement?_eq h.forest h.mirrored hs]
      exact Option.toList_map
    | subsequentSibling => exact h.tree.elementsBefore_eq h.forest h.mirrored hs

theorem joined_iff {combinator : Combinator} {left : NodeId} (hs : setting.tree.Shown id) :
    mirror.Joined combinator left (twin id) ↔
      ∃ other, setting.Joined combinator other id ∧ twin other = left := by
  rw [← mem_related_iff h.mirrored (h.tree.shown.mapsTo hs).element, h.related_eq combinator hs,
    List.mem_map]
  exact exists_congr fun _ => and_congr_left' (mem_related_iff h.forest hs.element)

theorem satisfies_iff (step : Step) (hp : setting.tree.Placed id) :
    mirror.Satisfies step (twin id) ↔ setting.Satisfies step id := by
  rcases hp with rfl | hs
  · have hroot := h.forest.root_not_element
    have hmirrored := h.mirrored.root_not_element
    rw [h.tree.root]
    refine iff_of_false (fun hs => ?_) fun hs => ?_
    · exact absurd (hmirrored.symm.trans hs.isElement) nofun
    · exact absurd (hroot.symm.trans hs.isElement) nofun
  · rw [← stepHolds_iff, ← stepHolds_iff, h.stepHolds_eq true step hs]

theorem leftFound_iff (left : List Step) (combinator : Combinator) (hs : setting.tree.Shown id) :
    mirror.LeftFound left combinator (twin id) ↔ setting.LeftFound left combinator id := by
  induction left generalizing combinator id with
  | nil => exact Iff.rfl
  | cons step left ih =>
    constructor
    · rintro ⟨_, hm, ht, hl⟩
      obtain ⟨other, hj, rfl⟩ := (h.joined_iff hs).mp hm
      have hplaced := placed_of_joined h.forest hs hj
      have hsat := (h.satisfies_iff step hplaced).mp ht
      have hshown := h.forest.shown_of_placed hplaced hsat.isElement
      exact ⟨other, hj, hsat, (ih step.combinator hshown).mp hl⟩
    · rintro ⟨other, hj, hsat, hl⟩
      have hplaced := placed_of_joined h.forest hs hj
      have hshown := h.forest.shown_of_placed hplaced hsat.isElement
      exact ⟨twin other, (h.joined_iff hs).mpr ⟨other, hj, rfl⟩,
        (h.satisfies_iff step hplaced).mpr hsat, (ih step.combinator hshown).mpr hl⟩

theorem selectorHolds_eq (checkTag : Bool) (selector : Selector) (hs : setting.tree.Shown id) :
    mirror.selectorHolds checkTag selector (twin id) = setting.selectorHolds checkTag selector id := by
  have hshown := h.tree.shown.mapsTo hs
  have hleft : (mirror.leftHolds selector.left selector.target.combinator (twin id) {}).1 =
      (setting.leftHolds selector.left selector.target.combinator id {}).1 := by
    rw [Bool.eq_iff_iff, leftHolds_iff h.mirrored hshown.element,
      leftHolds_iff h.forest hs.element]
    exact h.leftFound_iff _ _ hs
  rw [Setting.selectorHolds_eq, Setting.selectorHolds_eq, h.stepHolds_eq checkTag _ hs, hleft]

/-- What is found below the document node of one tree are the twins of what is found in the other,
in the same order. -/
theorem toList_narrow (list : SelectorList) :
    (mirror.narrow [.root] list).toList = (setting.narrow [.root] list).toList.map twin := by
  have hdescendants : mirror.tree.descendants .root =
      (setting.tree.descendants .root).map twin := by
    rw [← h.tree.descendants_eq h.forest h.mirrored (.inl rfl), h.tree.root]
  have hmember : ∀ member : Selector,
      (mirror.tree.descendants .root).filter (mirror.selectorHolds true member) =
        ((setting.tree.descendants .root).filter (setting.selectorHolds true member)).map twin := by
    intro member
    rw [hdescendants, List.filter_map]
    refine congrArg (List.map twin) (List.filter_congr fun id hm => ?_)
    exact h.selectorHolds_eq true member (h.forest.shown_iff.mpr hm)
  rw [Setting.toList_narrow, Setting.toList_narrow, ← eraseDups_map]
  · simp only [List.flatMap_singleton, hmember, List.map_flatMap]
  · refine h.tree.shown.injOn.mono fun id hm => ?_
    obtain ⟨member, -, hm⟩ := List.mem_flatMap.mp hm
    rw [List.flatMap_singleton] at hm
    exact h.forest.shown_iff.mpr (List.mem_filter.mp hm).1

end Setting.Alike

namespace Session

/-- A query finds in one document the twins of what it finds in another that is alike, in the same
order. Handles, the order of building, texts, comments and nodes outside the document do not count. -/
theorem findList_of_alike {tree other : Tree} {twin : NodeId → NodeId} (h : tree.Alike other twin)
    (hr : tree.Reachable) (ho : other.Reachable) {list : SelectorList}
    (hl : list.supported = .ok ()) (options : Options) {pseudo : PseudoRules}
    (hp : pseudo = .always ∨ pseudo = .structural) :
    ∃ front back, (((ofRoot tree).withOptions options).withPseudo pseudo).findList list = .ok front ∧
      (((ofRoot other).withOptions options).withPseudo pseudo).findList list = .ok back ∧
      back.found.toList = front.found.toList.map twin := by
  obtain ⟨front, hf, hfront⟩ := findList_ofRoot tree options pseudo hl
  obtain ⟨back, hb, hback⟩ := findList_ofRoot other options pseudo hl
  refine ⟨front, back, hf, hb, ?_⟩
  rw [hfront, hback]
  exact (h.setting hr ho options hp).toList_narrow list

/-- The same three elements, built in another order and beside a text and a comment. -/
theorem findList_of_rebuilt :
    let tree := Tree.grow [.appendElement .root "a" [], .appendElement ⟨1⟩ "b" [],
      .appendElement ⟨1⟩ "c" []]
    let other := Tree.grow [.createComment "note", .createElement "a", .createElement "b",
      .createElement "c", .append ⟨2⟩ ⟨3⟩, .appendText ⟨2⟩ "text", .append ⟨2⟩ ⟨4⟩,
      .append .root ⟨2⟩]
    let twin : NodeId → NodeId := fun id => if id = .root then id else ⟨id.index + 1⟩
    let list : SelectorList := ⟨[⟨[{ pseudoClasses := ["last-child"] }], nofun⟩]⟩
    tree.Reachable ∧ other.Reachable ∧ tree.Alike other twin ∧ list.supported = .ok () ∧
      ∃ back, (((ofRoot other).withOptions {}).withPseudo .structural).findList list = .ok back ∧
        back.found.toList = [⟨2⟩, ⟨4⟩] := by
  intro tree other twin list
  have hr : tree.Reachable := ⟨_, rfl⟩
  have ho : other.Reachable := ⟨_, rfl⟩
  have hl : list.supported = .ok () := rfl
  let a := NameTable.initial.intern "a"
  let b := a.2.intern "b"
  let c := b.2.intern "c"
  obtain ⟨htree, ha, hb, hc⟩ : tree.names = c.2 ∧
      tree.element? ⟨1⟩ = some { name := { localName := a.1 } } ∧
      tree.element? ⟨2⟩ = some { name := { localName := b.1 } } ∧
      tree.element? ⟨3⟩ = some { name := { localName := c.1 } } := ⟨rfl, rfl, rfl, rfl⟩
  obtain ⟨hother, ha', hb', hc'⟩ : other.names = c.2 ∧
      other.element? ⟨2⟩ = some { name := { localName := a.1 } } ∧
      other.element? ⟨3⟩ = some { name := { localName := b.1 } } ∧
      other.element? ⟨4⟩ = some { name := { localName := c.1 } } := ⟨rfl, rfl, rfl, rfl⟩
  have hall : ∀ {P : NodeId → Prop}, P ⟨1⟩ ∧ P ⟨2⟩ ∧ P ⟨3⟩ →
      ∀ id ∈ tree.descendants .root, P id := by
    intro P h
    have hlisted : tree.descendants .root = [⟨1⟩, ⟨2⟩, ⟨3⟩] := rfl
    rw [hlisted]
    simpa using h
  have halike : tree.Alike other twin :=
    hr.forest.alike_of_descendants ho.forest rfl rfl (hother.trans htree.symm)
      (hall ⟨ha'.trans ha.symm, hb'.trans hb.symm, hc'.trans hc.symm⟩)
      (hall ⟨rfl, rfl, rfl⟩) (hall ⟨rfl, rfl, rfl⟩)
  obtain ⟨front, back, hf, hb, hmap⟩ := findList_of_alike halike hr ho hl {} (.inr rfl)
  obtain ⟨after, ha, hn⟩ := findList_ofRoot tree {} .structural hl
  cases hf.symm.trans ha
  refine ⟨hr, ho, halike, hl, back, hb, ?_⟩
  rw [hmap, hn, Setting.toList_narrow]
  rfl

end Session

end TreeQuery
