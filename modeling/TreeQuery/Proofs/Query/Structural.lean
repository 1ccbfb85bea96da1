import TreeQuery.Proofs.Tree.Siblings
import TreeQuery.Query.Setting

/-! What the pseudo-classes about the place in the tree say of an element.
They are answered by walks from the element to both sides; what they say is told by its place in the
list of the elements beside it. -/
namespace TreeQuery

def PseudoRules.structuralNames : List String :=
  ["root", "empty", "first-child", "last-child", "only-child", "first-of-type", "last-of-type",
    "only-of-type"]

theorem PseudoRules.structuralClass_of_not_mem {name : String} (h : name ∉ structuralNames)
    (tree : Tree) (id : NodeId) : structuralClass tree id name = true := by
  unfold structuralClass
  split
  case h_9 => rfl
  all_goals exact absurd (by decide) h

section Lists

variable {α : Type} {list front back : List α} {place : Nat} {a : α}

theorem exists_split_of_getElem? (h : list[place]? = some a) :
    ∃ front back, list = front ++ a :: back ∧ front.length = place := by
  obtain ⟨hlt, rfl⟩ := List.getElem?_eq_some_iff.mp h
  refine ⟨list.take place, list.drop (place + 1), ?_, List.length_take_of_le (Nat.le_of_lt hlt)⟩
  rw [List.getElem_cons_drop, List.take_append_drop]

theorem forall_others_iff {P : α → Prop} (hn : (front ++ a :: back).Nodup) :
    (∀ b ∈ front ++ a :: back, b ≠ a → P b) ↔ (∀ b ∈ front, P b) ∧ ∀ b ∈ back, P b := by
  obtain ⟨hfront, hback⟩ : a ∉ front ∧ a ∉ back := by
    simpa using (List.nodup_cons.mp (List.perm_middle.nodup_iff.mp hn)).1
  constructor
  · intro h
    refine ⟨fun b hb => h b ?_ ?_, fun b hb => h b ?_ ?_⟩
    · exact List.mem_append_left _ hb
    · exact ne_of_mem_of_not_mem hb hfront
    · exact List.mem_append_right _ (List.mem_cons_of_mem a hb)
    · exact ne_of_mem_of_not_mem hb hback
  · rintro ⟨hf, hb⟩ b hm hne
    rcases List.mem_append.mp hm with hm | hm
    · exact hf b hm
    · exact hb b ((List.mem_cons.mp hm).resolve_left hne)

end Lists

namespace Tree

variable {tree : Tree} {id c p : NodeId} {front back : List NodeId} {tag : String}

/-- The elements beside an element, itself included, in order. One without a parent is alone. -/
def elementSiblings (tree : Tree) (id : NodeId) : List NodeId :=
  match tree.parent? id with
  | some p => tree.elementChildren p
  | none => [id]

/-- What pseudo-classes say of the element at a place among its siblings. -/
structure StructuralAnswers (tree : Tree) (id : NodeId) (place : Nat) : Prop where
  once : (tree.elementSiblings id).Nodup
  firstChild : PseudoRules.structural.classHolds tree id "first-child" = true ↔ place = 0
  lastChild : PseudoRules.structural.classHolds tree id "last-child" = true ↔
    place + 1 = (tree.elementSiblings id).length
  onlyChild : PseudoRules.structural.classHolds tree id "only-child" = true ↔
    tree.elementSiblings id = [id]
  firstOfType : PseudoRules.structural.classHolds tree id "first-of-type" = true ↔
    ∀ other ∈ (tree.elementSiblings id).take place, tree.tagName? other ≠ tree.tagName? id
  lastOfType : PseudoRules.structural.classHolds tree id "last-of-type" = true ↔
    ∀ other ∈ (tree.elementSiblings id).drop (place + 1), tree.tagName? other ≠ tree.tagName? id
  onlyOfType : PseudoRules.structural.classHolds tree id "only-of-type" = true ↔
    ∀ other ∈ tree.elementSiblings id, other ≠ id → tree.tagName? other ≠ tree.tagName? id
  empty : PseudoRules.structural.classHolds tree id "empty" = true ↔ tree.elementChildren id = []
  root : PseudoRules.structural.classHolds tree id "root" = true ↔
    ∀ p, tree.parent? id = some p → tree.isElement p = false
  others : ∀ name, name ∉ PseudoRules.structuralNames →
    PseudoRules.structural.classHolds tree id name = true
  elements : ∀ name, PseudoRules.structural.elementHolds tree id name = true

namespace Forest

variable (f : Forest tree tree.children)

include f

theorem mem_elementSiblings (he : tree.isElement id = true) : id ∈ tree.elementSiblings id := by
  rw [elementSiblings]
  cases hp : tree.parent? id with
  | none => exact List.mem_singleton_self id
  | some p => exact f.mem_elementChildren.mpr ⟨hp, he⟩

theorem elementSiblings_nodup (id : NodeId) : (tree.elementSiblings id).Nodup := by
  rw [elementSiblings]
  cases tree.parent? id with
  | none => exact List.pairwise_singleton _ id
  | some p => exact f.elementChildren_nodup p

/-- The walks to both sides go through what stands before the element and behind it. -/
theorem walks_beside (hs : tree.elementSiblings id = front ++ id :: back) :
    tree.elementsBefore id = front.reverse ∧ tree.elementsAfter id = back ∧
      tree.prevElement? id = front.getLast? ∧ tree.nextElement? id = back.head? := by
  rw [elementSiblings] at hs
  cases hp : tree.parent? id with
  | none =>
    rw [hp] at hs
    have halone : front = [] ∧ back = [] := by
      simpa using List.append_eq_singleton_iff.mp hs.symm
    obtain ⟨rfl, rfl⟩ := halone
    have hprev := f.prevElement?_of_top hp
    have hnext := f.nextElement?_of_top hp
    rw [elementsBefore, elementsAfter, hprev, hnext]
    have hstop : ∀ next, follow next tree.size none = [] :=
      fun _ => Route.stop.follow_eq (Nat.zero_le _)
    exact ⟨hstop _, hstop _, rfl, rfl⟩
  | some p =>
    rw [hp] at hs
    exact ⟨f.elementsBefore_eq hs, f.elementsAfter_eq hs, (f.chain_elements p).along hs⟩

theorem structuralAnswers (hs : tree.elementSiblings id = front ++ id :: back) :
    tree.StructuralAnswers id front.length := by
  obtain ⟨hbefore, hafter, hprev, hnext⟩ := f.walks_beside hs
  have hfirst : PseudoRules.firstOfType tree id = true ↔
      ∀ other ∈ front, tree.tagName? other ≠ tree.tagName? id := by
    simp [PseudoRules.firstOfType, hbefore]
  have hlast : PseudoRules.lastOfType tree id = true ↔
      ∀ other ∈ back, tree.tagName? other ≠ tree.tagName? id := by
    simp [PseudoRules.lastOfType, hafter]
  have honce := f.elementSiblings_nodup id
  constructor
  case once => exact honce
  case firstChild => simp [PseudoRules.structural, PseudoRules.structuralClass, hprev]
  case lastChild => simp [PseudoRules.structural, PseudoRules.structuralClass, hnext, hs]
  case onlyChild =>
    simp [PseudoRules.structural, PseudoRules.structuralClass, hprev, hnext, hs,
      List.append_eq_singleton_iff]
  case firstOfType =>
    have htake : (tree.elementSiblings id).take front.length = front := by simp [hs]
    rw [htake]
    exact hfirst
  case lastOfType =>
    have hdrop : (tree.elementSiblings id).drop (front.length + 1) = back := by simp [hs]
    rw [hdrop]
    exact hlast
  case onlyOfType =>
    have hboth : PseudoRules.structural.classHolds tree id "only-of-type" =
        (PseudoRules.firstOfType tree id && PseudoRules.lastOfType tree id) := rfl
    rw [hs] at honce ⊢
    rw [hboth, Bool.and_eq_true, hfirst, hlast, forall_others_iff honce]
  case empty =>
    simp [PseudoRules.structural, PseudoRules.structuralClass, f.firstElementChild?_eq]
  case root =>
    cases hp : tree.parent? id <;> simp [PseudoRules.structural, PseudoRules.structuralClass, hp]
  case others => exact fun _ hn => PseudoRules.structuralClass_of_not_mem hn tree id
  case elements => exact fun _ => rfl

theorem firstOfType_iff (hc : tree.tagName? c = some tag) (hm : c ∈ tree.elementChildren p) :
    PseudoRules.firstOfType tree c = true ↔
      (tree.elementChildren p).find? (fun other => tree.tagName? other == some tag) = some c := by
  rw [PseudoRules.firstOfType, List.all_eq_true, List.find?_eq_some_iff_append, hc]
  constructor
  · intro h
    obtain ⟨front, back, hs⟩ := List.append_of_mem hm
    rw [f.elementsBefore_eq hs] at h
    exact ⟨by simp, front, back, hs, by simpa using h⟩
  · rintro ⟨-, front, back, hs, h⟩
    rw [f.elementsBefore_eq hs]
    simpa using h

theorem lastOfType_iff (hc : tree.tagName? c = some tag) (hm : c ∈ tree.elementChildren p) :
    PseudoRules.lastOfType tree c = true ↔ (tree.elementChildren p).reverse.find?
      (fun other => tree.tagName? other == some tag) = some c := by
  rw [PseudoRules.lastOfType, List.all_eq_true, List.find?_eq_some_iff_append, hc]
  constructor
  · intro h
    obtain ⟨front, back, hs⟩ := List.append_of_mem hm
    rw [f.elementsAfter_eq hs] at h
    exact ⟨by simp, back.reverse, front.reverse, by simp [hs], by simpa using h⟩
  · rintro ⟨-, back, front, hs, h⟩
    have hback : tree.elementChildren p = front.reverse ++ c :: back.reverse := by
      rw [← List.reverse_inj, hs]
      simp
    rw [f.elementsAfter_eq hback]
    simpa using h

end Forest

theorem existsUnique_of_find? {list : List NodeId} {P : NodeId → Prop}
    (hP : ∀ c ∈ list, tree.tagName? c = some tag →
      (P c ↔ list.find? (fun other => tree.tagName? other == some tag) = some c))
    (h : ∃ c ∈ list, tree.tagName? c = some tag) :
    ∃! c, c ∈ list ∧ tree.tagName? c = some tag ∧ P c := by
  have hsome : (list.find? fun other => tree.tagName? other == some tag).isSome = true := by
    simpa using h
  obtain ⟨c, hc⟩ := Option.isSome_iff_exists.mp hsome
  have hm : c ∈ list := List.mem_of_find?_eq_some hc
  have ht : tree.tagName? c = some tag := by simpa using List.find?_some hc
  refine ⟨c, ⟨hm, ht, (hP c hm ht).mpr hc⟩, ?_⟩
  rintro other ⟨ho, hto, hpo⟩
  exact Option.some.inj (((hP other ho hto).mp hpo).symm.trans hc)

/-- The structural pseudo-classes tell the place of an element among its siblings, and each tag that
element children of a node have is that of exactly one first and exactly one last of its type. -/
theorem Reachable.structural_answers (h : tree.Reachable) :
    (∀ id, tree.isElement id = true → id ∈ tree.elementSiblings id ∧
        ∀ place, (tree.elementSiblings id)[place]? = some id → tree.StructuralAnswers id place) ∧
      ∀ p tag, (∃ c ∈ tree.elementChildren p, tree.tagName? c = some tag) →
        (∃! c, c ∈ tree.elementChildren p ∧ tree.tagName? c = some tag ∧
          PseudoRules.structural.classHolds tree c "first-of-type" = true) ∧
        ∃! c, c ∈ tree.elementChildren p ∧ tree.tagName? c = some tag ∧
          PseudoRules.structural.classHolds tree c "last-of-type" = true := by
  have f := h.forest
  refine ⟨fun id he => ⟨f.mem_elementSiblings he, fun place hp => ?_⟩, fun p tag hc => ?_⟩
  · obtain ⟨front, back, hs, rfl⟩ := exists_split_of_getElem? hp
    exact f.structuralAnswers hs
  · refine ⟨existsUnique_of_find? (fun c hm ht => f.firstOfType_iff ht hm) hc, ?_⟩
    have hreverse : ∀ c, c ∈ tree.elementChildren p ↔ c ∈ (tree.elementChildren p).reverse :=
      fun _ => List.mem_reverse.symm
    simp only [hreverse] at hc ⊢
    exact existsUnique_of_find? (fun c hm ht => f.lastOfType_iff ht (List.mem_reverse.mp hm)) hc

/-- An element between two others and among texts, and the first element with its tag. -/
theorem structural_answers_between :
    let tree := Tree.grow [.appendText .root "text", .appendElement .root "a" [],
      .appendText .root "text", .appendElement .root "b" [], .appendElement .root "a" []]
    tree.Reachable ∧ tree.isElement ⟨4⟩ = true ∧ tree.StructuralAnswers ⟨4⟩ 1 ∧
      ∃ tag, (∃ c ∈ tree.elementChildren .root, tree.tagName? c = some tag) ∧
        ∃! c, c ∈ tree.elementChildren .root ∧ tree.tagName? c = some tag ∧
          PseudoRules.structural.classHolds tree c "first-of-type" = true := by
  intro tree
  have hr : tree.Reachable := ⟨_, rfl⟩
  obtain ⟨hplaces, htypes⟩ := hr.structural_answers
  have htag : ∃ c ∈ tree.elementChildren .root, tree.tagName? c = tree.tagName? ⟨4⟩ :=
    ⟨⟨4⟩, by decide, rfl⟩
  exact ⟨hr, rfl, (hplaces ⟨4⟩ rfl).2 1 rfl, _, htag, (htypes .root _ htag).1⟩

end Tree

end TreeQuery
