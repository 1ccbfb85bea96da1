import Mathlib.Data.List.Forall2
import TreeQuery.Proofs.Selector.Derivation

/-! What a list holds that is assembled from events, whichever they are and in whatever order.
Commas cut the events into segments, combinators cut a segment into stretches. Each segment gives one
member and each stretch one step, from the events of that stretch alone. -/
namespace TreeQuery

/-- The combinator that an event puts between two steps. -/
def Event.combinator? : Event → Option Combinator
  | .combinator joint => some joint
  | _ => none

/-- The events between commas. -/
def segments (events : List Event) : List (List Event) := events.splitOn .nextSelector

def stretches (segment : List Event) : List (List Event) :=
  segment.splitOnP fun event => event.combinator?.isSome

def joints (segment : List Event) : List Combinator := segment.filterMap Event.combinator?

/-- The step holds the parts that the events of a stretch name, and no others. Of several types or
ids the last one counts; the star, like an empty name, asks for no type. -/
structure Step.Gathers (stretch : List Event) (step : Step) : Prop where
  element : step.element = (stretch.filterMap Event.element?).getLast?.filter fun name =>
    name ≠ "" ∧ name ≠ "*"
  ns : step.ns = none
  id : step.id = (stretch.filterMap Event.id?).getLast?
  classes : ∀ name, name ∈ step.classes ↔ Event.className name ∈ stretch
  tests : step.tests = stretch.filterMap Event.test?
  pseudoClasses : step.pseudoClasses = stretch.filterMap Event.pseudoClass?
  pseudoElements : step.pseudoElements = stretch.filterMap Event.pseudoElement?

/-- The member has one step for each stretch of a segment. No combinator joins the first step, and
each later one is joined by the combinator that stands before its stretch. -/
structure Selector.Follows (segment : List Event) (member : Selector) : Prop where
  length : member.steps.length = (joints segment).length + 1
  combinators : member.steps.map Step.combinator = .none :: joints segment
  parts : List.Forall₂ Step.Gathers (stretches segment) member.steps

variable {parts events segment stretch : List Event} {combinator next : Combinator}

theorem parts_induct {P : List Event → Prop}
    (last : ∀ {parts}, (∀ event ∈ parts, event.isPart = true) → P parts)
    (joint : ∀ {parts next events}, (∀ event ∈ parts, event.isPart = true) → P events →
      P (parts ++ .combinator next :: events))
    (comma : ∀ {parts events}, (∀ event ∈ parts, event.isPart = true) → P events →
      P (parts ++ .nextSelector :: events))
    (events : List Event) : P events := by
  have main : ∀ parts : List Event, (∀ event ∈ parts, event.isPart = true) →
      P (parts ++ events) := by
    induction events with
    | nil =>
      intro parts hp
      rw [List.append_nil]
      exact last hp
    | cons event events ih =>
      intro parts hp
      have hrest : P events := ih [] nofun
      by_cases he : event.isPart = true
      · have hparts : ∀ other ∈ parts ++ [event], other.isPart = true :=
          List.forall_mem_append.mpr ⟨hp, List.forall_mem_singleton.mpr he⟩
        rw [List.append_cons]
        exact ih _ hparts
      · cases event with
        | combinator next => exact joint hp hrest
        | nextSelector => exact comma hp hrest
        | _ => exact absurd rfl he
  exact main [] nofun

section Cut

variable {front first : List Event} {rest : List (List Event)}

theorem combinator?_of_isPart (hp : ∀ event ∈ parts, event.isPart = true) :
    ∀ event ∈ parts, event.combinator? = none := by
  intro event he
  have hpart := hp event he
  cases event with
  | combinator next => cases hpart
  | _ => rfl

theorem joints_of_parts (hp : ∀ event ∈ parts, event.isPart = true) : joints parts = [] :=
  List.filterMap_eq_nil_iff.mpr (combinator?_of_isPart hp)

theorem isSome_combinator?_of_isPart (hp : ∀ event ∈ parts, event.isPart = true) :
    ∀ event ∈ parts, event.combinator?.isSome = false := by
  intro event he
  rw [combinator?_of_isPart hp event he, Option.isSome_none]

theorem comma_not_mem (hp : ∀ event ∈ parts, event.isPart = true) : .nextSelector ∉ parts :=
  fun hm => absurd (hp _ hm) nofun

theorem segments_append (hf : .nextSelector ∉ front) (h : segments events = first :: rest) :
    segments (front ++ events) = (front ++ first) :: rest := by
  induction front with
  | nil => exact h
  | cons event front ih =>
    obtain ⟨hne, hf⟩ := not_or.mp (mt List.mem_cons.mpr hf)
    have he : ¬(event == Event.nextSelector) = true := by simpa using Ne.symm hne
    rw [segments, List.cons_append, List.splitOn_cons_eq_if_modifyHead, if_neg he]
    exact congrArg (List.modifyHead (event :: ·)) (ih hf)

theorem length_segments (events : List Event) :
    (segments events).length = events.count .nextSelector + 1 := by
  induction events with
  | nil => rfl
  | cons event events ih =>
    rw [segments, List.splitOn_cons_eq_if_modifyHead, List.count_cons]
    split
    · exact congrArg (· + 1) ih
    · rw [List.length_modifyHead]
      exact ih

end Cut

section Assemble

variable {steps : List Step}

theorem Step.gathers_described (stretch : List Event) (combinator : Combinator) :
    (Step.described combinator stretch).Gathers stretch := by
  refine ⟨rfl, rfl, rfl, fun name => ?_, rfl, rfl, rfl⟩
  rw [described, NameSet.mem_ofList, List.mem_filterMap]
  constructor
  · rintro ⟨event, he, hn⟩
    cases event with
    | className other =>
      cases hn
      exact he
    | _ => cases hn
  · exact fun he => ⟨_, he, rfl⟩

/-- The steps of a segment before which a combinator stands. -/
structure FollowsFrom (combinator : Combinator) (segment : List Event) (steps : List Step) :
    Prop where
  combinators : steps.map Step.combinator = combinator :: joints segment
  parts : List.Forall₂ Step.Gathers (stretches segment) steps

theorem followsFrom_parts (hp : ∀ event ∈ parts, event.isPart = true) :
    FollowsFrom combinator parts [.described combinator parts] := by
  constructor
  · rw [joints_of_parts hp]
    rfl
  · rw [stretches, List.splitOnP_eq_singleton (isSome_combinator?_of_isPart hp)]
    exact .cons (Step.gathers_described parts combinator) .nil

theorem FollowsFrom.join (hp : ∀ event ∈ parts, event.isPart = true)
    (h : FollowsFrom next segment steps) :
    FollowsFrom combinator (parts ++ .combinator next :: segment)
      (.described combinator parts :: steps) := by
  constructor
  · have hjoints : joints (parts ++ .combinator next :: segment) = next :: joints segment := by
      rw [joints, List.filterMap_append]
      exact congrArg (· ++ next :: joints segment) (joints_of_parts hp)
    rw [hjoints, List.map_cons, h.combinators]
    rfl
  · rw [stretches,
      List.splitOnP_append_cons_of_forall_mem (isSome_combinator?_of_isPart hp) _ rfl segment]
    exact .cons (Step.gathers_described parts combinator) h.parts

/-- Whatever the events, they assemble the steps of their segments. -/
theorem exists_assembles (events : List Event) (combinator : Combinator) :
    ∃ first rest steps members, segments events = first :: rest ∧
      Assembles combinator events (steps :: members) ∧ FollowsFrom combinator first steps ∧
      List.Forall₂ (FollowsFrom .none) rest members := by
  induction events using parts_induct generalizing combinator with
  | last hp =>
    exact ⟨_, [], _, [], List.splitOn_eq_singleton (comma_not_mem hp), assembles_compound hp,
      followsFrom_parts hp, .nil⟩
  | @joint parts next events hp ih =>
    obtain ⟨first, rest, steps, members, hs, ha, hf, hr⟩ := ih next
    have hfront : .nextSelector ∉ parts ++ [.combinator next] :=
      List.not_mem_append (comma_not_mem hp) (by simp)
    refine ⟨parts ++ .combinator next :: first, rest, _, members, ?_, ha.join hp, hf.join hp, hr⟩
    rw [List.append_cons parts, segments_append hfront hs, ← List.append_cons]
  | comma hp ih =>
    obtain ⟨first, rest, steps, members, hs, ha, hf, hr⟩ := ih .none
    refine ⟨_, first :: rest, _, _, ?_, ha.comma hp, followsFrom_parts hp, .cons hf hr⟩
    rw [← hs]
    exact List.splitOn_append_cons_self_of_not_mem (comma_not_mem hp) _

end Assemble

/-- Every run of events assembles one member for each segment, with one step for each stretch: the
parts of a step are those of its stretch, its combinator the one written before it. -/
theorem SelectorList.ofEvents_follows (events : List Event) :
    (SelectorList.ofEvents events).members.length = events.count .nextSelector + 1 ∧
      List.Forall₂ Selector.Follows (segments events) (SelectorList.ofEvents events).members := by
  obtain ⟨first, rest, steps, members, hs, ha, hf, hr⟩ := exists_assembles events .none
  have hsteps : (SelectorList.ofEvents events).members.map Selector.steps = steps :: members :=
    ha.ofEvents_eq_iff.mp rfl
  have hall : List.Forall₂ Selector.Follows (segments events)
      (SelectorList.ofEvents events).members := by
    have hfollows : List.Forall₂ (FollowsFrom .none) (segments events)
        ((SelectorList.ofEvents events).members.map Selector.steps) := by
      rw [hs, hsteps]
      exact .cons hf hr
    refine (List.forall₂_map_right_iff.mp hfollows).imp fun segment member h => ?_
    refine ⟨?_, h.combinators, h.parts⟩
    rw [← List.length_map Step.combinator, h.combinators, List.length_cons]
  refine ⟨?_, hall⟩
  rw [← hall.length_eq, length_segments]

end TreeQuery
