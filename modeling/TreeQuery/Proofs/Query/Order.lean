import TreeQuery.Proofs.Query.Run
import TreeQuery.Proofs.Tree.Likeness
import TreeQuery.Proofs.Tree.Order

/-! Sessions that find nodes in document order.
A search that starts from nodes in this order, for a list of one member, ends with nodes in this
order, also where start nodes lie below one another; filtering keeps the order. -/
namespace TreeQuery

namespace Setting

theorem toList_narrow_singleton (setting : Setting) (roots : List NodeId) (member : Selector) :
    (setting.narrow roots ⟨[member]⟩).toList = (roots.flatMap fun root =>
      (setting.tree.descendants root).filter (setting.selectorHolds true member)).eraseDups := by
  rw [toList_narrow, List.flatMap_singleton]

theorem pairwise_narrow {setting : Setting} (f : setting.tree.Forest setting.tree.children)
    {roots : List NodeId} (h : roots.Pairwise setting.tree.Precedes) {list : SelectorList}
    (hl : list.members.length = 1) :
    (setting.narrow roots list).toList.Pairwise setting.tree.Precedes := by
  obtain ⟨members⟩ := list
  obtain ⟨member, rfl⟩ := List.length_eq_one_iff.mp hl
  rw [toList_narrow_singleton]
  exact f.pairwise_eraseDups_descendants _ h

end Setting

namespace Session

/-- A request and what a session becomes where it succeeds. A list that filters what has been found
may have any number of members; one that starts a search has a single one. -/
inductive Leads (session : Session) : Session → Prop where
  | find {text list next} : SelectorList.parse text = .ok list →
      (session.started = false → list.members.length = 1) → session.find text = .ok next →
      Leads session next
  | findList {list next} : (session.started = false → list.members.length = 1) →
      session.findList list = .ok next → Leads session next
  | within {text list inner} : SelectorList.parse text = .ok list → list.members.length = 1 →
      session.within text = .ok inner → Leads session inner
  | reset : Leads session session.reset
  | options (options : Options) : Leads session (session.withOptions options)
  | pseudo (pseudo : PseudoRules) : Leads session (session.withPseudo pseudo)

/-- The sessions that such requests lead to from the document node. -/
inductive Obtained (tree : Tree) : Session → Prop where
  | root : Obtained tree (.ofRoot tree)
  | next {session next} : Obtained tree session → Leads session next → Obtained tree next

structure InOrder (session : Session) (tree : Tree) : Prop where
  onTree : session.setting.tree = tree
  placed : ∀ id ∈ session.found.toList, tree.Placed id
  sorted : session.found.toList.Pairwise tree.Precedes

theorem inOrder_root {session : Session} {tree : Tree} (ht : session.setting.tree = tree)
    (h : session.found = .single .root) : session.InOrder tree := by
  have hfound : session.found.toList = [.root] := by
    rw [h]
    exact ArrivalSet.toList_ofList _
  refine ⟨ht, ?_, ?_⟩
  · rw [hfound]
    exact List.forall_mem_singleton.mpr (.inl rfl)
  · rw [hfound]
    exact List.pairwise_singleton _ _

namespace InOrder

variable {session next : Session} {tree : Tree} {list : SelectorList}
  (h : session.InOrder tree) (f : tree.Forest tree.children)

include h f

theorem narrow (hl : list.members.length = 1) :
    (∀ id ∈ (session.setting.narrow session.found.toList list).toList, tree.Placed id) ∧
      (session.setting.narrow session.found.toList list).toList.Pairwise tree.Precedes := by
  obtain ⟨rfl, hplaced, hsorted⟩ := h
  constructor
  · intro id hid
    obtain ⟨he, ⟨root, hr, hb⟩, -⟩ := (Setting.mem_narrow_iff f).mp hid
    exact .inr ((hplaced root hr).shown_of_below hb he)
  · exact Setting.pairwise_narrow f hsorted hl

theorem findList (hl : session.started = false → list.members.length = 1)
    (hn : session.findList list = .ok next) : next.InOrder tree := by
  rw [session.findList_of_searchable (findList_ok hn).1] at hn
  cases hn
  cases hs : session.started with
  | false =>
    obtain ⟨hplaced, hsorted⟩ := h.narrow f (hl hs)
    exact ⟨h.onTree, hplaced, hsorted⟩
  | true =>
    have hfound := ArrivalSet.toList_ofList_of_nodup
      ((f.nodup_of_precedes h.sorted).filter (session.setting.listHolds list))
    refine ⟨h.onTree, fun id hid => ?_, ?_⟩
    · rw [if_pos rfl, hfound] at hid
      exact h.placed id (List.mem_filter.mp hid).1
    · rw [if_pos rfl, hfound]
      exact h.sorted.filter _

theorem leads (hn : session.Leads next) : next.InOrder tree := by
  cases hn with
  | @find text list next hp hl hf =>
    obtain ⟨other, ho, hf⟩ := find_ok hf
    cases hp.symm.trans ho
    exact h.findList f hl hf
  | findList hl hf => exact h.findList f hl hf
  | @within text list inner hp hl hw =>
    obtain ⟨other, ho, hf⟩ := find_ok hw
    cases hp.symm.trans ho
    have hstart : InOrder { session with started := false, last := none } tree :=
      ⟨h.onTree, h.placed, h.sorted⟩
    exact hstart.findList f (fun _ => hl) hf
  | reset => exact inOrder_root h.onTree rfl
  | options options => exact ⟨h.onTree, h.placed, h.sorted⟩
  | pseudo pseudo => exact ⟨h.onTree, h.placed, h.sorted⟩

/-- What is found is a part of the document, read from the document node on. -/
theorem sublist : session.found.toList.Sublist (.root :: tree.descendants .root) := by
  have hdocument : (.root :: tree.descendants .root).Pairwise tree.Precedes :=
    .cons (fun id hid => .inl (f.mem_descendants_iff.mp hid).2) (f.pairwise_descendants .root)
  have hfound : session.found.toList =
      (.root :: tree.descendants .root).filter fun id => session.found.toList.contains id := by
    refine f.eq_of_precedes h.sorted (hdocument.filter _) fun id => ?_
    rw [List.mem_filter, List.contains_iff_mem, List.mem_cons, ← f.shown_iff]
    exact (and_iff_right_of_imp (h.placed id)).symm
  rw [hfound]
  exact List.filter_sublist

end InOrder

theorem Obtained.inOrder {session : Session} {tree : Tree} (h : Obtained tree session)
    (f : tree.Forest tree.children) : session.InOrder tree := by
  induction h with
  | root => exact inOrder_root rfl rfl
  | next _ hn ih => exact ih.leads f hn

/-- Whatever searches, filters, searches within and resets lead to a session, it has found nodes of
the document in document order, none of them twice. -/
theorem Obtained.found_in_order {session : Session} {tree : Tree} (h : Obtained tree session)
    (hr : tree.Reachable) : session.found.toList.Pairwise tree.Precedes ∧
      session.found.toList.Nodup ∧
      session.found.toList.Sublist (.root :: tree.descendants .root) := by
  have horder := h.inOrder hr.forest
  exact ⟨horder.sorted, hr.forest.nodup_of_precedes horder.sorted, horder.sublist hr.forest⟩

/-- Three elements inside one another: a search within all of them meets the innermost one twice. -/
theorem found_in_order_of_nested :
    let tree := Tree.grow [.appendElement .root "a" [], .appendElement ⟨1⟩ "a" [],
      .appendElement ⟨2⟩ "a" []]
    ∃ session, Obtained tree session ∧ tree.Reachable ∧ session.found.toList = [⟨2⟩, ⟨3⟩] ∧
      session.found.toList.Pairwise tree.Precedes := by
  intro tree
  let list : SelectorList := .any
  have hr : tree.Reachable := ⟨_, rfl⟩
  have hl : list.supported = .ok () := rfl
  have hp : SelectorList.parse list.text = .ok list := parse_text_any
  have hstart : Obtained tree (((ofRoot tree).withOptions {}).withPseudo .always) :=
    (Obtained.root.next (.options {})).next (.pseudo .always)
  obtain ⟨outer, hf, ho⟩ := findList_ofRoot tree {} .always hl
  obtain ⟨inner, hw, hi⟩ := outer.within_of_parse hp
  have hinner : Obtained tree inner :=
    (hstart.next (.findList (fun _ => rfl) hf)).next (.within hp rfl hw)
  have hfound : inner.found.toList = [⟨2⟩, ⟨3⟩] := by
    have houter : outer.found.toList = [⟨1⟩, ⟨2⟩, ⟨3⟩] := by
      rw [ho, Setting.toList_narrow]
      rfl
    rw [hi, setting_of_findList hf, houter, Setting.toList_narrow]
    rfl
  exact ⟨inner, hinner, hr, hfound, (hinner.found_in_order hr).1⟩

end Session

end TreeQuery
