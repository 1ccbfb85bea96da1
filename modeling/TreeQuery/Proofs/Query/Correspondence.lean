import TreeQuery.Proofs.Query.Run

/-! Selectors that correspond to one another step by step.
Where a step holds of the same nodes as its counterpart and is joined by the same combinator, the
searches for both selectors take the same course and note the same failures. What is found is then
the same in the same order, search after search. -/
namespace TreeQuery

theorem map_eq_map_of_forall₂ {α β γ : Type} {R : α → β → Prop} {f : α → γ} {g : β → γ}
    {list : List α} {others : List β} (h : List.Forall₂ R list others)
    (hfg : ∀ a b, R a b → g b = f a) : others.map g = list.map f := by
  rw [← List.forall₂_eq_eq_eq, List.forall₂_map_left_iff, List.forall₂_map_right_iff]
  exact h.flip.imp fun b a hab => hfg a b hab

theorem forall_mem_of_forall₂ {α β : Type} {R : α → β → Prop} {P : α → Prop} {Q : β → Prop}
    {list : List α} {others : List β} (h : List.Forall₂ R list others)
    (hPQ : ∀ a b, R a b → P a → Q b) (hP : ∀ a ∈ list, P a) : ∀ b ∈ others, Q b := by
  induction h with
  | nil => exact fun _ hm => absurd hm List.not_mem_nil
  | cons hab _ ih =>
    obtain ⟨hfirst, hrest⟩ := List.forall_mem_cons.mp hP
    exact List.forall_mem_cons.mpr ⟨hPQ _ _ hab hfirst, ih hrest⟩

def Selector.Matches (R : Step → Step → Prop) (selector twin : Selector) : Prop :=
  List.Forall₂ R selector.steps twin.steps

def SelectorList.Matches (R : Step → Step → Prop) (list twin : SelectorList) : Prop :=
  List.Forall₂ (Selector.Matches R) list.members twin.members

section Selectors

variable {R : Step → Step → Prop}

theorem Selector.Matches.outward {selector twin : Selector} (h : selector.Matches R twin) :
    R selector.target twin.target ∧ List.Forall₂ R selector.left twin.left := by
  have hreverse : List.Forall₂ R selector.steps.reverse twin.steps.reverse :=
    List.forall₂_reverse_iff.mpr h
  rw [selector.steps_eq, twin.steps_eq, List.reverse_concat, List.reverse_concat,
    List.reverse_reverse, List.reverse_reverse] at hreverse
  exact List.forall₂_cons.mp hreverse

theorem SelectorList.Matches.searchable {list twin : SelectorList} (h : list.Matches R twin)
    (hR : ∀ step other, R step other → step.Searchable → other.Searchable)
    (hl : list.Searchable) : twin.Searchable :=
  forall_mem_of_forall₂ h (fun _ _ hm hs => forall_mem_of_forall₂ hm hR hs) hl

end Selectors

/-- Two settings with the same walks, and steps that hold in the one setting of the nodes of which
their counterparts hold in the other. -/
structure Setting.Corresponds (setting other : Setting) (R : Step → Step → Prop) : Prop where
  related : other.related = setting.related
  descendants : other.tree.descendants = setting.tree.descendants
  combinator : ∀ {step twin : Step}, R step twin → twin.combinator = step.combinator
  holds : ∀ {step twin : Step}, R step twin → ∀ checkTag,
    other.stepHolds checkTag twin = setting.stepHolds checkTag step
  tag : ∀ {step twin : Step}, R step twin → ∀ id,
    ((other.tree.tagName? id).any fun tag =>
      twin.element.all fun wanted => other.tagHolds wanted tag) =
    (setting.tree.tagName? id).any fun tag =>
      step.element.all fun wanted => setting.tagHolds wanted tag

namespace Setting.Corresponds

variable {R : Step → Step → Prop} {setting other : Setting} (h : setting.Corresponds other R)

include h

/-- The two searches for the steps to the left take the same course and learn the same. -/
theorem leftHolds_eq {left twins : List Step} (hl : List.Forall₂ R left twins)
    (combinator : Combinator) (id : NodeId) (search : Search) :
    other.leftHolds twins combinator id search = setting.leftHolds left combinator id search := by
  induction hl generalizing combinator id search with
  | nil => rfl
  | cons hstep hl ih =>
    rw [leftHolds, leftHolds]
    simp only [hl.length_eq, h.related, h.holds hstep, h.combinator hstep, ih]

theorem selectorHolds_eq {selector twin : Selector} (hs : selector.Matches R twin)
    (checkTag : Bool) :
    other.selectorHolds checkTag twin = setting.selectorHolds checkTag selector := by
  obtain ⟨htarget, hleft⟩ := hs.outward
  funext id
  rw [Setting.selectorHolds_eq, Setting.selectorHolds_eq, h.holds htarget, h.combinator htarget,
    h.leftHolds_eq hleft]

theorem listHolds_eq {list twin : SelectorList} (hl : list.Matches R twin) :
    other.listHolds twin = setting.listHolds list := by
  funext id
  have hmap := map_eq_map_of_forall₂ hl fun _ _ hm => congrFun (h.selectorHolds_eq hm true) id
  have hany := congrArg (List.any · fun found => found) hmap
  simpa only [listHolds, List.any_map, Function.comp_def] using hany

theorem candidates_eq (roots : List NodeId) {selector twin : Selector}
    (hs : selector.Matches R twin) :
    other.candidates roots twin = setting.candidates roots selector := by
  refine List.flatMap_congr fun root _ => ?_
  rw [h.descendants]
  exact List.filter_congr fun id _ => h.tag hs.outward.1 id

theorem narrow_eq (roots : List NodeId) {list twin : SelectorList} (hl : list.Matches R twin) :
    other.narrow roots twin = setting.narrow roots list := by
  have hmap := map_eq_map_of_forall₂ hl
    (f := fun member =>
      (setting.candidates roots member).filter (setting.selectorHolds false member))
    (g := fun member => (other.candidates roots member).filter (other.selectorHolds false member))
    fun _ _ hm => by rw [h.candidates_eq roots hm, h.selectorHolds_eq hm false]
  rw [Setting.narrow_eq, Setting.narrow_eq, List.flatMap_def, List.flatMap_def, hmap]

end Setting.Corresponds

namespace Session

structure Corresponds (session other : Session) (R : Step → Step → Prop) : Prop where
  setting : session.setting.Corresponds other.setting R
  found : other.found = session.found
  started : other.started = session.started

namespace Corresponds

variable {R : Step → Step → Prop} {session other : Session} (h : session.Corresponds other R)
  (hR : ∀ step twin, R step twin → step.Searchable → twin.Searchable)

include h hR

theorem findList {list twin : SelectorList} (hm : list.Matches R twin) (hl : list.Searchable) :
    ∃ front back, session.findList list = .ok front ∧ other.findList twin = .ok back ∧
      front.Corresponds back R := by
  refine ⟨_, _, session.findList_of_searchable hl,
    other.findList_of_searchable (hm.searchable hR hl), h.setting, ?_, rfl⟩
  simp only [h.started, h.found, h.setting.listHolds_eq hm, h.setting.narrow_eq _ hm]

theorem findLists {lists twins : List SelectorList}
    (hm : List.Forall₂ (SelectorList.Matches R) lists twins)
    (hl : ∀ list ∈ lists, list.Searchable) :
    ∃ front back, lists.foldlM Session.findList session = .ok front ∧
      twins.foldlM Session.findList other = .ok back ∧ front.Corresponds back R := by
  induction hm generalizing session other with
  | nil => exact ⟨session, other, rfl, rfl, h⟩
  | cons hfirst _ ih =>
    obtain ⟨hlist, hlists⟩ := List.forall_mem_cons.mp hl
    obtain ⟨front, back, hf, hb, hnext⟩ := h.findList hR hfirst hlist
    obtain ⟨front, back, hfront, hback, hlast⟩ := ih hnext hlists
    refine ⟨front, back, ?_, ?_, hlast⟩
    · rw [List.foldlM_cons, hf]
      exact hfront
    · rw [List.foldlM_cons, hb]
      exact hback

end Corresponds

end Session

end TreeQuery
