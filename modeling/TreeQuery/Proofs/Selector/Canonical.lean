import TreeQuery.Proofs.Selector.Assembly
import TreeQuery.Proofs.Selector.Grammar

/-! The canonical text of a list as the texts of its events, and the tokens meant by them.
Reading those tokens gives the events back, and so the list. -/
namespace TreeQuery

def AttributeSelector.tokens (test : AttributeSelector) : List Token :=
  .leftBracket :: .ident test.name ::
    ((match test.value with
      | none => []
      | some value => [.operator test.operator, .quoted value]) ++ [.rightBracket])

def Combinator.tokens : Combinator → List Token
  | .none => []
  | .descendant => [.blank]
  | .child => [.blank, .greater, .blank]
  | .nextSibling => [.blank, .plus, .blank]
  | .subsequentSibling => [.blank, .tilde, .blank]

def AttributeSelector.spelled (spell : String → List Char) (test : AttributeSelector) :
    List Char :=
  '[' :: spell test.name ++
    (match test.value with
      | none => []
      | some value => test.operator.symbol.toList ++ writeQuoted value.toList) ++ [']']

namespace Event

/-- The text of an event whose name is spelled in a given way. An element named by a star is the one
that is not asked for. -/
def spelled (spell : String → List Char) : Event → List Char
  | element name => if name = "*" then ['*'] else spell name
  | id name => '#' :: spell name
  | className name => '.' :: spell name
  | test wanted => wanted.spelled spell
  | pseudoClass name => ':' :: spell name
  | pseudoElement name => ':' :: ':' :: spell name
  | combinator joint => joint.separator.toList
  | nextSelector => [',', ' ']

abbrev write : Event → List Char := spelled fun name => writeName name.toList

/-- The tokens that the text of an event is meant to give. -/
def tokens : Event → List Token
  | element name => if name = "*" then [.star] else [.ident name]
  | id name => [.hash, .ident name]
  | className name => [.dot, .ident name]
  | test wanted => wanted.tokens
  | pseudoClass name => [.colon, .ident name]
  | pseudoElement name => [.doubleColon, .ident name]
  | combinator joint => joint.tokens
  | nextSelector => [.comma, .blank]

end Event

section Write

theorem Step.write_eq {step : Step} (h : step.Regular) :
    step.write = step.events.flatMap Event.write := by
  have htype : step.writeElement = step.typeEvents.flatMap Event.write := by
    unfold writeElement typeEvents
    cases he : step.element with
    | none => cases step.isUniversal <;> rfl
    | some name => simp [Event.spelled, (h.element name he).2]
  have hid : step.writeId = (step.id.toList.map Event.id).flatMap Event.write := by
    rw [writeId]
    cases step.id with
    | none => rfl
    | some name => exact (List.append_nil _).symm
  rw [write, events, partEvents, htype, hid]
  simp only [List.flatMap_append, List.flatMap_map, List.append_assoc]
  rfl

theorem writeSteps_eq {steps : List Step} (h : ∀ step ∈ steps, step.Regular) :
    writeSteps steps = (stepsEvents steps).flatMap Event.write := by
  cases steps with
  | nil => rfl
  | cons first rest =>
    obtain ⟨hf, hr⟩ := List.forall_mem_cons.mp h
    rw [writeSteps, stepsEvents, List.flatMap_append, List.flatMap_assoc, Step.write_eq hf]
    refine congrArg _ (List.flatMap_congr fun step hs => ?_)
    rw [Step.writeJoined, Step.write_eq (hr step hs)]
    rfl

theorem SelectorList.write_eq {list : SelectorList} (h : list.Regular) :
    list.write = list.events.flatMap Event.write := by
  obtain ⟨members⟩ := list
  cases members with
  | nil => exact absurd rfl h.nonempty
  | cons first rest =>
    obtain ⟨hf, hr⟩ := List.forall_mem_cons.mp h.members
    rw [write, events, writeMembers, membersEvents, List.flatMap_append, List.flatMap_assoc,
      Selector.write, writeSteps_eq hf.each]
    refine congrArg _ (List.flatMap_congr fun member hm => ?_)
    rw [Selector.write, writeSteps_eq (hr member hm).each]
    rfl

end Write

section Events

theorem Step.Regular.regular_events {step : Step} (h : step.Regular) :
    ∀ event ∈ step.events, event.Regular := by
  refine List.forall_mem_append.mpr ⟨?_, ?_⟩
  · unfold Step.typeEvents
    cases he : step.element with
    | none =>
      have hstar : (Event.element "*").Regular := show "*" ≠ "" by decide
      dsimp only
      split
      · exact List.forall_mem_singleton.mpr hstar
      · exact nofun
    | some name => exact List.forall_mem_singleton.mpr (h.element name he).1
  · simp only [Step.partEvents, List.forall_mem_append, List.forall_mem_map]
    refine ⟨⟨⟨⟨fun name hn => ?_, h.classes⟩, h.tests⟩, h.pseudoClasses⟩, h.pseudoElements⟩
    exact h.id name (Option.mem_toList.mp hn)

theorem RegularSteps.regular_events {steps : List Step} (h : RegularSteps steps) :
    ∀ event ∈ stepsEvents steps, event.Regular := by
  have heach := h.each
  have hlater := h.later
  cases steps with
  | nil => exact nofun
  | cons first rest =>
    obtain ⟨hf, hr⟩ := List.forall_mem_cons.mp heach
    refine List.forall_mem_append.mpr ⟨hf.regular_events, fun event he => ?_⟩
    obtain ⟨step, hs, he⟩ := List.mem_flatMap.mp he
    rcases List.mem_cons.mp he with rfl | he
    · exact hlater step hs
    · exact (hr step hs).regular_events event he

theorem SelectorList.Regular.regular_events {list : SelectorList} (h : list.Regular) :
    ∀ event ∈ list.events, event.Regular := by
  obtain ⟨members⟩ := list
  cases members with
  | nil => exact nofun
  | cons first rest =>
    obtain ⟨hf, hr⟩ := List.forall_mem_cons.mp h.members
    refine List.forall_mem_append.mpr ⟨hf.regular_events, fun event he => ?_⟩
    obtain ⟨member, hm, he⟩ := List.mem_flatMap.mp he
    rcases List.mem_cons.mp he with rfl | he
    · trivial
    · exact (hr member hm).regular_events event he

end Events

namespace Grammar

theorem Part.of_test {test : AttributeSelector} (h : test.Regular) :
    Part test.tokens (.test test) := by
  obtain ⟨name, ns, operator, value⟩ := test
  obtain rfl : ns = none := h.ns
  have hv := h.value
  cases value with
  | none =>
    obtain rfl : operator = .present := by_contra fun ho => absurd (hv.mpr ho) nofun
    exact .test (.present .absent .absent)
  | some value => exact .test (.compare .absent .absent .absent .absent (.quoted value))

theorem parts_of_step {step : Step} (h : step.Regular) :
    Parts (step.partEvents.flatMap Event.tokens) step.partEvents := by
  have main : ∀ events : List Event, (∀ event ∈ events, Part event.tokens event) →
      Parts (events.flatMap Event.tokens) events := by
    intro events
    induction events with
    | nil => exact fun _ => .nil
    | cons event events ih =>
      intro he
      obtain ⟨he, hr⟩ := List.forall_mem_cons.mp he
      exact .cons he (ih hr)
  apply main _
  simp only [Step.partEvents, List.forall_mem_append, List.forall_mem_map]
  refine ⟨⟨⟨⟨?_, ?_⟩, ?_⟩, ?_⟩, ?_⟩
  · exact fun name _ => .id (.ident name)
  · exact fun name _ => .className name
  · exact fun test ht => .of_test (h.tests test ht)
  · exact fun name _ => .pseudoClass name
  · exact fun name _ => .pseudoElement name

theorem isUniversal_of_partEvents {step : Step} (he : step.element = none)
    (hp : step.partEvents = []) : step.isUniversal = true := by
  simp only [Step.partEvents, List.append_eq_nil_iff, List.map_eq_nil_iff,
    Option.toList_eq_nil_iff] at hp
  obtain ⟨⟨⟨⟨hid, hclasses⟩, htests⟩, hpseudoClasses⟩, hpseudoElements⟩ := hp
  simp [Step.isUniversal, NameSet.isEmpty, he, hid, hclasses, htests, hpseudoClasses,
    hpseudoElements]

theorem compound_of_step {step : Step} (h : step.Regular) :
    Compound (step.events.flatMap Event.tokens) step.events := by
  have hparts := parts_of_step h
  unfold Step.events Step.typeEvents
  cases he : step.element with
  | some name =>
    have ht : (Event.element name).tokens = [.ident name] := if_neg (h.element name he).2
    dsimp only
    rw [List.singleton_append, List.flatMap_cons, ht]
    exact .typed hparts
  | none =>
    dsimp only
    split
    · exact .star hparts
    · rename_i hu
      cases hp : step.partEvents with
      | nil => exact absurd (isUniversal_of_partEvents he hp) hu
      | cons event events =>
        rw [hp] at hparts
        exact .untyped hparts

theorem joint_of_combinator {combinator : Combinator} (h : combinator ≠ .none) :
    Joint combinator.tokens (.combinator combinator) := by
  cases combinator with
  | none => exact absurd rfl h
  | descendant => exact .blank
  | child => exact .sign .greater .present .present
  | nextSibling => exact .sign .plus .present .present
  | subsequentSibling => exact .sign .tilde .present .present

/-- What may follow a compound: nothing, or a joint and more compounds. -/
inductive Tail : List Event → Prop where
  | nil : Tail []
  | cons {joint events} : Joint joint.tokens joint →
      Compounds (events.flatMap Event.tokens) events → Tail (joint :: events)

theorem compounds_append {events more : List Event}
    (hc : Compound (events.flatMap Event.tokens) events) (ht : Tail more) :
    Compounds ((events ++ more).flatMap Event.tokens) (events ++ more) := by
  rw [List.flatMap_append]
  cases ht with
  | nil =>
    rw [List.append_nil events]
    exact .last hc .absent
  | cons hj hm => exact .cons hc hj hm

theorem compounds_of_steps {steps : List Step} {more : List Event} (h : RegularSteps steps)
    (hne : steps ≠ []) (ht : Tail more) :
    Compounds ((stepsEvents steps ++ more).flatMap Event.tokens) (stepsEvents steps ++ more) := by
  have tail : ∀ rest : List Step, (∀ step ∈ rest, step.Regular) →
      (∀ step ∈ rest, step.combinator ≠ .none) →
      Tail (rest.flatMap Step.joinedEvents ++ more) := by
    intro rest
    induction rest with
    | nil => exact fun _ _ => ht
    | cons step rest ih =>
      intro hs hc
      obtain ⟨hs, hrest⟩ := List.forall_mem_cons.mp hs
      obtain ⟨hc, hjoined⟩ := List.forall_mem_cons.mp hc
      rw [List.flatMap_cons, List.append_assoc]
      exact .cons (joint_of_combinator hc) (compounds_append (compound_of_step hs) (ih hrest hjoined))
  have heach := h.each
  have hlater := h.later
  cases steps with
  | nil => exact absurd rfl hne
  | cons first rest =>
    obtain ⟨hf, hr⟩ := List.forall_mem_cons.mp heach
    rw [stepsEvents, List.append_assoc]
    exact compounds_append (compound_of_step hf) (tail rest hr hlater)

/-- The events of a regular list are what the grammar derives from their tokens. -/
theorem compounds_of_list {list : SelectorList} (h : list.Regular) :
    Compounds (list.events.flatMap Event.tokens) list.events := by
  have tail : ∀ rest : List Selector, (∀ member ∈ rest, RegularSteps member.steps) →
      Tail (rest.flatMap fun member => .nextSelector :: stepsEvents member.steps) := by
    intro rest
    induction rest with
    | nil => exact fun _ => .nil
    | cons member rest ih =>
      intro hm
      obtain ⟨hm, hrest⟩ := List.forall_mem_cons.mp hm
      exact .cons (.sign .comma .absent .present)
        (compounds_of_steps hm member.nonempty (ih hrest))
  obtain ⟨members⟩ := list
  cases members with
  | nil => exact absurd rfl h.nonempty
  | cons first rest =>
    obtain ⟨hf, hr⟩ := List.forall_mem_cons.mp h.members
    exact compounds_of_steps hf first.nonempty (tail rest hr)

end Grammar

end TreeQuery
