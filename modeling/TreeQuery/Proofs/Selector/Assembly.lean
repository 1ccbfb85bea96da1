import TreeQuery.Selector.Event

/-! Which lists can be assembled from events, and from which events a list is assembled. -/
namespace TreeQuery

structure AttributeSelector.Regular (test : AttributeSelector) : Prop where
  name : test.name ≠ ""
  ns : test.ns = none
  value : test.value.isSome = true ↔ test.operator ≠ .present

structure Step.Regular (step : Step) : Prop where
  element : ∀ name, step.element = some name → name ≠ "" ∧ name ≠ "*"
  ns : step.ns = none
  id : ∀ name, step.id = some name → name ≠ ""
  classes : ∀ name ∈ step.classes, name ≠ ""
  tests : ∀ test ∈ step.tests, test.Regular
  pseudoClasses : ∀ name ∈ step.pseudoClasses, name ≠ ""
  pseudoElements : ∀ name ∈ step.pseudoElements, name ≠ ""

/-- Regular steps, each but the first with the combinator that joins it to the one before. -/
structure RegularSteps (steps : List Step) : Prop where
  each : ∀ step ∈ steps, step.Regular
  first : ∀ step ∈ steps.head?, step.combinator = .none
  later : ∀ step ∈ steps.tail, step.combinator ≠ .none

structure SelectorList.Regular (list : SelectorList) : Prop where
  nonempty : list.members ≠ []
  members : ∀ member ∈ list.members, RegularSteps member.steps

def Event.Regular : Event → Prop
  | .element name | .id name | .className name | .pseudoClass name | .pseudoElement name =>
    name ≠ ""
  | .test wanted => wanted.Regular
  | .combinator joint => joint ≠ .none
  | .nextSelector => True

/-- The step as it grows, and the steps and members finished before it, are regular. -/
structure Draft.Regular (draft : Draft) : Prop where
  members : ∀ member ∈ draft.members.toList, RegularSteps member.steps
  steps : RegularSteps draft.steps.toList
  current : draft.current.Regular
  pending : draft.pending = .none ↔ draft.steps.toList = []

theorem RegularSteps.concat {steps : List Step} {step : Step} (h : RegularSteps steps)
    (hs : step.Regular) (hc : step.combinator = .none ↔ steps = []) :
    RegularSteps (steps ++ [step]) := by
  constructor
  · intro other ho
    rcases List.mem_append.mp ho with ho | ho
    · exact h.each other ho
    · exact List.mem_singleton.mp ho ▸ hs
  · cases steps with
    | nil => rintro other ⟨⟩; exact hc.mpr rfl
    | cons front steps => exact h.first
  · cases steps with
    | nil => exact nofun
    | cons front steps =>
      intro other ho
      rcases List.mem_append.mp ho with ho | ho
      · exact h.later other ho
      · rw [List.mem_singleton.mp ho]
        exact fun hn => absurd (hc.mp hn) (List.cons_ne_nil front steps)

theorem Step.Regular.any : Step.any.Regular :=
  ⟨nofun, rfl, nofun, nofun, nofun, nofun, nofun⟩

theorem Step.Regular.joinedBy {step : Step} (h : step.Regular) (combinator : Combinator) :
    (step.joinedBy combinator).Regular :=
  ⟨h.element, h.ns, h.id, h.classes, h.tests, h.pseudoClasses, h.pseudoElements⟩

theorem Step.Regular.withElement {step : Step} (h : step.Regular) (name : String) :
    (step.withElement name).Regular := by
  refine ⟨?_, h.ns, h.id, h.classes, h.tests, h.pseudoClasses, h.pseudoElements⟩
  intro wanted hw
  simp only [Step.withElement] at hw
  split at hw
  · cases hw
  · rename_i hstar
    cases hw
    exact not_or.mp hstar

theorem Step.Regular.withId {step : Step} (h : step.Regular) {name : String} (hn : name ≠ "") :
    (step.withId name).Regular := by
  refine ⟨h.element, h.ns, ?_, h.classes, h.tests, h.pseudoClasses, h.pseudoElements⟩
  rintro wanted ⟨⟩
  exact hn

theorem Step.Regular.withClass {step : Step} (h : step.Regular) {name : String} (hn : name ≠ "") :
    (step.withClass name).Regular := by
  refine ⟨h.element, h.ns, h.id, ?_, h.tests, h.pseudoClasses, h.pseudoElements⟩
  intro other ho
  rcases NameSet.mem_insert.mp ho with rfl | ho
  · exact hn
  · exact h.classes other ho

theorem Step.Regular.withTest {step : Step} (h : step.Regular) {test : AttributeSelector}
    (ht : test.Regular) : (step.withTest test).Regular :=
  ⟨h.element, h.ns, h.id, h.classes,
    List.forall_mem_append.mpr ⟨h.tests, List.forall_mem_singleton.mpr ht⟩,
    h.pseudoClasses, h.pseudoElements⟩

theorem Step.Regular.withPseudoClass {step : Step} (h : step.Regular) {name : String}
    (hn : name ≠ "") : (step.withPseudoClass name).Regular :=
  ⟨h.element, h.ns, h.id, h.classes, h.tests,
    List.forall_mem_append.mpr ⟨h.pseudoClasses, List.forall_mem_singleton.mpr hn⟩,
    h.pseudoElements⟩

theorem Step.Regular.withPseudoElement {step : Step} (h : step.Regular) {name : String}
    (hn : name ≠ "") : (step.withPseudoElement name).Regular :=
  ⟨h.element, h.ns, h.id, h.classes, h.tests, h.pseudoClasses,
    List.forall_mem_append.mpr ⟨h.pseudoElements, List.forall_mem_singleton.mpr hn⟩⟩

namespace Draft

variable {draft : Draft} {event : Event}

theorem Regular.closeStep (h : draft.Regular) :
    RegularSteps draft.closeStep.steps.toList ∧ draft.closeStep.steps.toList ≠ [] := by
  rw [Draft.closeStep, Array.toList_push]
  exact ⟨h.steps.concat (h.current.joinedBy draft.pending) h.pending, by simp⟩

theorem members_next (draft : Draft) : ∃ member, (draft.next .nextSelector).members.toList =
      draft.members.toList ++ [member] ∧ member.steps = draft.closeStep.steps.toList := by
  have hne : draft.closeStep.steps.toList ≠ [] := by
    rw [Draft.closeStep, Array.toList_push]
    exact List.append_ne_nil_of_right_ne_nil _ (List.cons_ne_nil _ _)
  refine ⟨⟨draft.closeStep.steps.toList, hne⟩, ?_, rfl⟩
  rw [Draft.next, closeMember, Selector.ofSteps?, dif_neg hne]
  exact Array.toList_push

theorem Regular.next (h : draft.Regular) (he : event.Regular) : (draft.next event).Regular := by
  have hcurrent : ∀ {step}, step.Regular → Draft.Regular { draft with current := step } :=
    fun hs => ⟨h.members, h.steps, hs, h.pending⟩
  cases event with
  | element name => exact hcurrent (h.current.withElement name)
  | id name => exact hcurrent (h.current.withId he)
  | className name => exact hcurrent (h.current.withClass he)
  | test wanted => exact hcurrent (h.current.withTest he)
  | pseudoClass name => exact hcurrent (h.current.withPseudoClass he)
  | pseudoElement name => exact hcurrent (h.current.withPseudoElement he)
  | combinator joint =>
    obtain ⟨hsteps, hne⟩ := h.closeStep
    exact ⟨h.members, hsteps, .any, ⟨fun hn => absurd hn he, fun hn => absurd hn hne⟩⟩
  | nextSelector =>
    obtain ⟨member, hm, hs⟩ := draft.members_next
    refine ⟨?_, ⟨nofun, nofun, nofun⟩, .any, ⟨fun _ => rfl, fun _ => rfl⟩⟩
    rw [hm]
    refine List.forall_mem_append.mpr ⟨h.members, List.forall_mem_singleton.mpr ?_⟩
    rw [hs]
    exact h.closeStep.1

end Draft

/-- Regular events assemble a regular list, in whatever order they come. -/
theorem SelectorList.regular_ofEvents {events : List Event}
    (h : ∀ event ∈ events, event.Regular) : (SelectorList.ofEvents events).Regular := by
  have main : ∀ (events : List Event) (draft : Draft), (∀ event ∈ events, event.Regular) →
      draft.Regular → (events.foldl Draft.next draft).Regular := by
    intro events
    induction events with
    | nil => exact fun _ _ hd => hd
    | cons event events ih =>
      intro draft he hd
      obtain ⟨he, hrest⟩ := List.forall_mem_cons.mp he
      exact ih _ hrest (hd.next he)
  have hstart : Draft.Regular {} :=
    ⟨nofun, ⟨nofun, nofun, nofun⟩, .any, ⟨fun _ => rfl, fun _ => rfl⟩⟩
  have hdraft := main events {} h hstart
  obtain ⟨member, hm, -⟩ := (events.foldl Draft.next {}).members_next
  have hlast : Event.nextSelector.Regular := trivial
  refine ⟨?_, (hdraft.next hlast).members⟩
  change ((events.foldl Draft.next {}).next .nextSelector).members.toList ≠ []
  rw [hm]
  simp

/-- The type of a step; the star stands for a step that asks for nothing. -/
def Step.typeEvents (step : Step) : List Event :=
  match step.element with
  | some name => [.element name]
  | none => if step.isUniversal then [.element "*"] else []

def Step.partEvents (step : Step) : List Event :=
  step.id.toList.map .id ++ step.classes.names.map .className ++ step.tests.map .test ++
    step.pseudoClasses.map .pseudoClass ++ step.pseudoElements.map .pseudoElement

def Step.events (step : Step) : List Event := step.typeEvents ++ step.partEvents

def Step.joinedEvents (step : Step) : List Event :=
  .combinator step.combinator :: step.events

def stepsEvents : List Step → List Event
  | [] => []
  | first :: rest => first.events ++ rest.flatMap Step.joinedEvents

def membersEvents : List Selector → List Event
  | [] => []
  | first :: rest =>
    stepsEvents first.steps ++ rest.flatMap fun member => .nextSelector :: stepsEvents member.steps

def SelectorList.events (list : SelectorList) : List Event := membersEvents list.members

section Assemble

variable {draft : Draft}

def Draft.asking (draft : Draft) (element id : Option String) (classes : List String)
    (tests : List AttributeSelector) (pseudoClasses pseudoElements : List String) : Draft :=
  { draft with
    current := { element, id, classes := .ofList classes, tests, pseudoClasses, pseudoElements } }

theorem foldl_next_put {α : Type} (event : α → Event) (put : List α → Draft)
    (h : ∀ front a, (put front).next (event a) = put (front ++ [a])) (items : List α) :
    (items.map event).foldl Draft.next (put []) = put items := by
  have main : ∀ front, (items.map event).foldl Draft.next (put front) = put (front ++ items) := by
    induction items with
    | nil => exact fun front => (congrArg put (List.append_nil front)).symm
    | cons a items ih =>
      intro front
      rw [List.map_cons, List.foldl_cons, h, ih, List.append_assoc, List.singleton_append]
  exact main []

theorem NameSet.ofList_names (set : NameSet) : NameSet.ofList set.names = set :=
  NameSet.ext fun _ => NameSet.mem_ofList

theorem NameSet.ofList_concat (names : List String) (name : String) :
    NameSet.ofList (names ++ [name]) = (NameSet.ofList names).insert name := by
  rw [ofList, List.foldl_append]
  rfl

theorem foldl_typeEvents {step : Step} (h : step.Regular) (hd : draft.current = .any) :
    step.typeEvents.foldl Draft.next draft = draft.asking step.element none [] [] [] [] := by
  have hany : draft.asking none none [] [] [] [] = draft := by
    cases draft
    exact congrArg (Draft.mk _ _ · _) hd.symm
  rw [Step.typeEvents]
  cases he : step.element with
  | none =>
    dsimp only
    rw [hany]
    split
    · rw [List.foldl_cons, List.foldl_nil, Draft.next, hd]
      exact hany
    · rfl
  | some name =>
    dsimp only
    rw [List.foldl_cons, List.foldl_nil, Draft.next, hd, Step.withElement,
      if_neg (not_or.mpr (h.element name he))]
    rfl

theorem foldl_stepEvents {step : Step} (h : step.Regular) (hd : draft.current = .any) :
    step.events.foldl Draft.next draft =
      { draft with current := { step with combinator := .none } } := by
  have hid : (step.id.toList.map Event.id).foldl Draft.next
      (draft.asking step.element none [] [] [] []) =
      draft.asking step.element step.id [] [] [] [] := by
    cases step.id <;> rfl
  have hclasses := foldl_next_put .className (draft.asking step.element step.id · [] [] [])
    (fun front a => by rw [Draft.asking, Draft.asking, NameSet.ofList_concat]; rfl)
    step.classes.names
  have htests := foldl_next_put .test (draft.asking step.element step.id step.classes.names · [] [])
    (fun _ _ => rfl) step.tests
  have hpseudoClasses := foldl_next_put .pseudoClass
    (draft.asking step.element step.id step.classes.names step.tests · [])
    (fun _ _ => rfl) step.pseudoClasses
  have hpseudoElements := foldl_next_put .pseudoElement
    (draft.asking step.element step.id step.classes.names step.tests step.pseudoClasses)
    (fun _ _ => rfl) step.pseudoElements
  rw [Step.events, Step.partEvents]
  simp only [List.foldl_append]
  rw [foldl_typeEvents h hd, hid, hclasses, htests, hpseudoClasses, hpseudoElements,
    Draft.asking, NameSet.ofList_names, ← h.ns]
  rfl

theorem closeStep_eq {step : Step} (hd : draft.current = { step with combinator := .none })
    (hp : draft.pending = step.combinator) :
    draft.closeStep = { members := draft.members, steps := draft.steps.push step } := by
  rw [Draft.closeStep, hd, hp]
  rfl

theorem foldl_joinedEvents {step : Step} {rest : List Step} {member : Selector}
    (h : ∀ step ∈ rest, step.Regular)
    (hm : member.steps = draft.steps.toList ++ step :: rest)
    (hd : draft.current = { step with combinator := .none }) (hp : draft.pending = step.combinator) :
    ((rest.flatMap Step.joinedEvents).foldl Draft.next draft).next .nextSelector =
      { members := draft.members.push member } := by
  induction rest generalizing draft step with
  | nil =>
    have hof : Selector.ofSteps? (draft.steps.push step).toList = some member := by
      rw [Array.toList_push, ← hm, Selector.ofSteps?, dif_neg member.nonempty]
    rw [List.flatMap_nil, List.foldl_nil, Draft.next, closeStep_eq hd hp, Draft.closeMember]
    dsimp only
    rw [hof]
  | cons next rest ih =>
    obtain ⟨hn, hrest⟩ := List.forall_mem_cons.mp h
    have hnext : member.steps = (draft.steps.push step).toList ++ next :: rest := by
      rw [hm, Array.toList_push, List.append_assoc, List.singleton_append]
    rw [List.flatMap_cons, List.foldl_append, Step.joinedEvents, List.foldl_cons, Draft.next,
      closeStep_eq hd hp, foldl_stepEvents hn rfl]
    exact ih hrest hnext rfl rfl

theorem next_stepsEvents {member : Selector} (h : RegularSteps member.steps)
    (members : Array Selector) :
    ((stepsEvents member.steps).foldl Draft.next { members }).next .nextSelector =
      { members := members.push member } := by
  have hfirst := h.first
  have heach := h.each
  cases hs : member.steps with
  | nil => exact absurd hs member.nonempty
  | cons first rest =>
    rw [hs] at hfirst heach
    obtain ⟨hr, hrest⟩ := List.forall_mem_cons.mp heach
    rw [stepsEvents, List.foldl_append, foldl_stepEvents hr rfl]
    exact foldl_joinedEvents hrest hs rfl (hfirst first rfl).symm

/-- A regular list is what its events assemble. -/
theorem SelectorList.ofEvents_events {list : SelectorList} (h : list.Regular) :
    SelectorList.ofEvents list.events = list := by
  have main : ∀ (rest : List Selector) (member : Selector) (members : Array Selector),
      (∀ member ∈ rest, RegularSteps member.steps) → RegularSteps member.steps →
      (((membersEvents (member :: rest)).foldl Draft.next { members }).next
        .nextSelector).members.toList = members.toList ++ member :: rest := by
    intro rest
    induction rest with
    | nil =>
      intro member members _ hm
      rw [membersEvents, List.flatMap_nil, List.append_nil, next_stepsEvents hm]
      exact Array.toList_push
    | cons next rest ih =>
      intro member members hrest hm
      obtain ⟨hn, hrest⟩ := List.forall_mem_cons.mp hrest
      rw [membersEvents, List.foldl_append, List.flatMap_cons, List.cons_append, List.foldl_cons,
        next_stepsEvents hm]
      apply (ih next (members.push member) hrest hn).trans
      rw [Array.toList_push, List.append_assoc, List.singleton_append]
  obtain ⟨members⟩ := list
  cases members with
  | nil => exact absurd rfl h.nonempty
  | cons member rest =>
    obtain ⟨hm, hrest⟩ := List.forall_mem_cons.mp h.members
    exact congrArg SelectorList.mk (main rest member #[] hrest hm)

end Assemble

end TreeQuery
