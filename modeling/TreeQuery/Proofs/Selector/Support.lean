import TreeQuery.Proofs.Selector.Reparse
import TreeQuery.Selector.Support

/-! Which lists an evaluation accepts, among them all that are read from text. -/
namespace TreeQuery

/-- A step that an evaluation accepts. -/
structure Step.Searchable (step : Step) : Prop where
  element : step.element ≠ some ""
  ns : step.ns = none
  tests : ∀ test ∈ step.tests, test.ns = none

def SelectorList.Searchable (list : SelectorList) : Prop :=
  ∀ member ∈ list.members, ∀ step ∈ member.steps, step.Searchable

theorem Step.searchable_iff {step : Step} : step.Searchable ↔
    step.element ≠ some "" ∧ step.ns = none ∧ ∀ test ∈ step.tests, test.ns = none :=
  ⟨fun h => ⟨h.element, h.ns, h.tests⟩, fun h => ⟨h.1, h.2.1, h.2.2⟩⟩

instance (step : Step) : Decidable step.Searchable :=
  decidable_of_iff _ Step.searchable_iff.symm

instance (list : SelectorList) : Decidable list.Searchable :=
  inferInstanceAs (Decidable (∀ member ∈ list.members, ∀ step ∈ member.steps, step.Searchable))

theorem Step.supported_eq_ok_iff {step : Step} : step.supported = .ok () ↔ step.Searchable := by
  have hfind : (step.tests.find? fun test => test.ns.isSome) = none ↔
      ∀ test ∈ step.tests, test.ns = none := by
    simp [List.find?_eq_none]
  unfold supported
  constructor
  · intro h
    split at h
    · cases h
    · rename_i he
      split at h
      · cases h
      · cases h
      · rename_i hn hf
        exact ⟨he, hn, hfind.mp hf⟩
  · intro h
    rw [if_neg h.element, h.ns, hfind.mpr h.tests]

theorem SelectorList.supported_eq_ok_iff {list : SelectorList} :
    list.supported = .ok () ↔ list.Searchable := by
  rw [supported, forM_eq_ok_iff]
  refine forall₂_congr fun member _ => ?_
  rw [Selector.supported, forM_eq_ok_iff]
  exact forall₂_congr fun _ _ => Step.supported_eq_ok_iff

/-- What selector text can say can be evaluated. -/
theorem SelectorList.Regular.searchable {list : SelectorList} (h : list.Regular) :
    list.Searchable := by
  intro member hm step hs
  have hr := (h.members member hm).each step hs
  exact ⟨fun he => (hr.element "" he).1 rfl, hr.ns, fun test ht => (hr.tests test ht).ns⟩

end TreeQuery
