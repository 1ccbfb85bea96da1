import TreeQuery.Proofs.Query.Arrival
import TreeQuery.Proofs.Query.Assignment
import TreeQuery.Proofs.Tree.Preorder
import TreeQuery.Query.Session

/-! What a first search finds, and in which order.
It goes through the elements that have the wanted tag and leaves the tag out when it judges them;
what it ends with are the elements below the start nodes that satisfy the list. -/
namespace TreeQuery

namespace Setting

variable {setting : Setting}

theorem narrow_eq (setting : Setting) (roots : List NodeId) (list : SelectorList) :
    setting.narrow roots list = .ofList (list.members.flatMap fun member =>
      (setting.candidates roots member).filter (setting.selectorHolds false member)) := by
  have main : ∀ (members : List Selector) (found : NodeSet),
      members.foldl (fun found member => found.extend
        ((setting.candidates roots member).filter (setting.selectorHolds false member))) found =
      found.extend (members.flatMap fun member =>
        (setting.candidates roots member).filter (setting.selectorHolds false member)) := by
    intro members
    induction members with
    | nil => exact fun _ => rfl
    | cons member members ih =>
      intro found
      rw [List.foldl_cons, ih, List.flatMap_cons, ArrivalSet.extend_append]
  exact main list.members .empty

/-- The tag that narrows the candidates is the one that a full check would look at. -/
theorem selectorHolds_of_tag (setting : Setting) (selector : Selector) (id : NodeId) :
    (setting.selectorHolds false selector id &&
      (setting.tree.tagName? id).any fun tag =>
        selector.target.element.all fun wanted => setting.tagHolds wanted tag) =
      setting.selectorHolds true selector id := by
  have hstep : (setting.stepHolds false selector.target id &&
      (setting.tree.tagName? id).any fun tag =>
        selector.target.element.all fun wanted => setting.tagHolds wanted tag) =
      setting.stepHolds true selector.target id := by
    unfold stepHolds
    cases setting.tree.tagName? id with
    | none => rfl
    | some tag =>
      rw [Option.any_some, Bool.and_comm]
      simp only [Bool.not_false, Bool.not_true, Bool.true_or, Bool.false_or, Bool.true_and,
        Bool.and_assoc]
  rw [selectorHolds_eq, selectorHolds_eq, ← hstep, Bool.and_assoc, Bool.and_assoc]
  congr 1
  exact Bool.and_comm _ _

theorem filter_candidates (setting : Setting) (roots : List NodeId) (selector : Selector) :
    (setting.candidates roots selector).filter (setting.selectorHolds false selector) =
      roots.flatMap fun root =>
        (setting.tree.descendants root).filter (setting.selectorHolds true selector) := by
  rw [candidates, List.filter_flatMap]
  refine congrArg (List.flatMap · roots) (funext fun root => ?_)
  rw [List.filter_filter]
  exact List.filter_congr fun id _ => setting.selectorHolds_of_tag selector id

theorem toList_narrow (setting : Setting) (roots : List NodeId) (list : SelectorList) :
    (setting.narrow roots list).toList = (list.members.flatMap fun member =>
      roots.flatMap fun root =>
        (setting.tree.descendants root).filter (setting.selectorHolds true member)).eraseDups := by
  rw [narrow_eq, ArrivalSet.toList_ofList]
  exact congrArg (fun f => (List.flatMap f list.members).eraseDups)
    (funext fun member => setting.filter_candidates roots member)

theorem mem_narrow_iff (f : setting.tree.Forest setting.tree.children) {roots : List NodeId}
    {list : SelectorList} {id : NodeId} :
    id ∈ (setting.narrow roots list).toList ↔ setting.tree.isElement id = true ∧
      (∃ root ∈ roots, setting.tree.Below id root) ∧ setting.listHolds list id = true := by
  rw [toList_narrow, List.mem_eraseDups, List.mem_flatMap, listHolds, List.any_eq_true]
  constructor
  · rintro ⟨member, hm, hid⟩
    obtain ⟨root, hr, hid⟩ := List.mem_flatMap.mp hid
    obtain ⟨hid, hs⟩ := List.mem_filter.mp hid
    obtain ⟨he, hb⟩ := f.mem_descendants_iff.mp hid
    exact ⟨he, ⟨root, hr, hb⟩, member, hm, hs⟩
  · rintro ⟨he, ⟨root, hr, hb⟩, member, hm, hs⟩
    exact ⟨member, hm, List.mem_flatMap.mpr
      ⟨root, hr, List.mem_filter.mpr ⟨f.mem_descendants_iff.mpr ⟨he, hb⟩, hs⟩⟩⟩

end Setting

namespace Session

theorem findList_ofRoot (tree : Tree) (options : Options) (pseudo : PseudoRules)
    {list : SelectorList} (hl : list.supported = .ok ()) :
    ∃ after, (((ofRoot tree).withOptions options).withPseudo pseudo).findList list = .ok after ∧
      after.found = Setting.narrow ⟨tree, options, pseudo⟩ [.root] list := by
  have hroot : (ofRoot tree).found.toList = [.root] := ArrivalSet.toList_ofList _
  have hstarted : (((ofRoot tree).withOptions options).withPseudo pseudo).started = false := rfl
  refine ⟨_, by rw [findList_eq, hl], ?_⟩
  rw [hstarted]
  exact congrArg (Setting.narrow ⟨tree, options, pseudo⟩ · list) hroot

/-- A first search ends with the elements below the start nodes that satisfy the list: member by
member, start node by start node, each element where it comes first. -/
theorem findList_of_not_started (session : Session) (list : SelectorList)
    (hr : session.setting.tree.Reachable) (hs : session.started = false)
    (hl : list.supported = .ok ()) :
    ∃ found, session.findList list = .ok { session with found, started := true, last := some list } ∧
      (∀ id, id ∈ found.toList ↔ session.setting.tree.isElement id = true ∧
        (∃ root ∈ session.found.toList, session.setting.tree.Below id root) ∧
        session.setting.listHolds list id = true) ∧
      found.toList = (list.members.flatMap fun member =>
        session.found.toList.flatMap fun root => (session.setting.tree.descendants root).filter
          (session.setting.selectorHolds true member)).eraseDups ∧
      ∀ root, session.setting.tree.descendants root =
        (session.setting.tree.elementChildren root).flatMap fun child =>
          child :: session.setting.tree.descendants child := by
  refine ⟨session.setting.narrow session.found.toList list, ?_, ?_, ?_, ?_⟩
  · rw [findList_eq, hl, hs]
    rfl
  · exact fun id => Setting.mem_narrow_iff hr.forest
  · exact session.setting.toList_narrow session.found.toList list
  · exact hr.forest.descendants_eq_flatMap

/-- Two nested start nodes: what lies below both is found once. -/
theorem findList_of_nested :
    let tree := Tree.grow [.appendElement .root "a" [], .appendElement ⟨1⟩ "a" []]
    let session : Session := ⟨{ tree }, .ofList [⟨1⟩, .root], false, none⟩
    let list : SelectorList := ⟨[⟨[{}], nofun⟩]⟩
    tree.Reachable ∧ session.started = false ∧ list.supported = .ok () ∧
      ∃ after, session.findList list = .ok after ∧ after.found.toList = [⟨2⟩, ⟨1⟩] := by
  intro tree session list
  have hr : tree.Reachable := ⟨_, rfl⟩
  obtain ⟨found, hf, -, ho, -⟩ := findList_of_not_started session list hr rfl rfl
  have hroots : session.found.toList = [⟨1⟩, .root] := ArrivalSet.toList_ofList _
  rw [hroots] at ho
  exact ⟨hr, rfl, rfl, _, hf, ho⟩

end Session

end TreeQuery
