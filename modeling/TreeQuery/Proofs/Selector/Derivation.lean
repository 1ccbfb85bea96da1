import TreeQuery.Proofs.Selector.Reparse

/-! What the grammar derives is a list, and reading a text finds just that list.
The list is read off the derivation: one member between commas, one step for each compound, joined
by the combinator written before it. Nothing is said here about how a list is assembled. -/
namespace TreeQuery

namespace Event

@[simp] def element? : Event → Option String
  | .element name => some name
  | _ => none

@[simp] def id? : Event → Option String
  | .id name => some name
  | _ => none

@[simp] def className? : Event → Option String
  | .className name => some name
  | _ => none

@[simp] def test? : Event → Option AttributeSelector
  | .test wanted => some wanted
  | _ => none

@[simp] def pseudoClass? : Event → Option String
  | .pseudoClass name => some name
  | _ => none

@[simp] def pseudoElement? : Event → Option String
  | .pseudoElement name => some name
  | _ => none

def isPart : Event → Bool
  | .combinator _ | .nextSelector => false
  | _ => true

end Event

/-- The step that the parts of a compound describe. Of several types or ids the last one counts;
the star, like an empty name, asks for no type. -/
def Step.described (combinator : Combinator) (parts : List Event) : Step where
  element := (parts.filterMap Event.element?).getLast?.filter fun name => name ≠ "" ∧ name ≠ "*"
  id := (parts.filterMap Event.id?).getLast?
  classes := .ofList (parts.filterMap Event.className?)
  tests := parts.filterMap Event.test?
  pseudoClasses := parts.filterMap Event.pseudoClass?
  pseudoElements := parts.filterMap Event.pseudoElement?
  combinator

namespace Grammar

/-- Compounds joined by combinators, with their steps; `combinator` stands before the first. -/
inductive Steps : Combinator → List Token → List Step → Prop where
  | last {combinator ts parts} : Compound ts parts →
      Steps combinator ts [.described combinator parts]
  | cons {combinator ts parts js next rest steps} : Compound ts parts →
      Joint js (.combinator next) → Steps next rest steps →
      Steps combinator (ts ++ (js ++ rest)) (.described combinator parts :: steps)

/-- Selectors between commas, with the steps of each; `combinator` stands before the first step. -/
inductive Members : Combinator → List Token → List (List Step) → Prop where
  | last {combinator ts steps} : Steps combinator ts steps → Members combinator ts [steps]
  | cons {combinator ts steps js rest members} : Steps combinator ts steps →
      Joint js .nextSelector → Members .none rest members →
      Members combinator (ts ++ (js ++ rest)) (steps :: members)

/-- A whole text, where no combinator stands before the first step. -/
inductive Derives : List Token → SelectorList → Prop where
  | intro {g ts h list} : Gap g → Members .none ts (list.members.map Selector.steps) → Gap h →
      Derives (g ++ (ts ++ h)) list

end Grammar

section Assemble

variable {draft : Draft} {parts events : List Event} {steps : List Step} {combinator : Combinator}

theorem Draft.next_described {event : Event} (he : event.isPart = true)
    (hd : draft.current = .described .none parts) :
    draft.next event = { draft with current := .described .none (parts ++ [event]) } := by
  cases event with
  | combinator joint => cases he
  | nextSelector => cases he
  | className name =>
    simp [Draft.next, hd, Step.withClass, Step.described, List.filterMap_cons,
      NameSet.ofList_concat]
  | element name =>
    have hn : (if name = "" ∨ name = "*" then none else some name) =
        if name ≠ "" ∧ name ≠ "*" then some name else none := by
      grind
    simp [Draft.next, hd, Step.withElement, Step.described, List.filterMap_cons,
      Option.filter_some, hn]
  | _ name =>
    simp [Draft.next, hd, Step.withId, Step.withTest, Step.withPseudoClass, Step.withPseudoElement,
      Step.described, List.filterMap_cons]

theorem Draft.foldl_described (hp : ∀ event ∈ parts, event.isPart = true)
    (hd : draft.current = .any) :
    parts.foldl Draft.next draft = { draft with current := .described .none parts } := by
  have main : ∀ front (back : List Event), (∀ event ∈ back, event.isPart = true) →
      ∀ draft : Draft, draft.current = .described .none front →
      back.foldl Draft.next draft = { draft with current := .described .none (front ++ back) } := by
    intro front back
    induction back generalizing front with
    | nil =>
      intro _ draft hd
      rw [List.append_nil, ← hd]
      rfl
    | cons event back ih =>
      intro hp draft hd
      obtain ⟨he, hback⟩ := List.forall_mem_cons.mp hp
      rw [List.foldl_cons, draft.next_described he hd, ih (front ++ [event]) hback _ rfl,
        List.append_assoc, List.singleton_append]
  exact main [] parts hp draft hd

/-- Where a draft waits for a step joined by `combinator`, the events go on from its steps with the
given members, the first of which takes over those steps. -/
def Assembles (combinator : Combinator) (events : List Event) (members : List (List Step)) : Prop :=
  ∀ draft : Draft, draft.current = .any → draft.pending = combinator →
    ((events.foldl Draft.next draft).next .nextSelector).members.toList.map Selector.steps =
      draft.members.toList.map Selector.steps ++ members.modifyHead (draft.steps.toList ++ ·)

theorem Draft.next_of_parts (hp : ∀ event ∈ parts, event.isPart = true) (hd : draft.current = .any) :
    ((parts.foldl Draft.next draft).next .nextSelector).members.toList.map Selector.steps =
      draft.members.toList.map Selector.steps ++
        [draft.steps.toList ++ [.described draft.pending parts]] := by
  rw [foldl_described hp hd]
  obtain ⟨member, hm, hs⟩ := members_next { draft with current := .described .none parts }
  rw [hm, List.map_append, List.map_singleton, hs, closeStep, Array.toList_push]
  rfl

theorem assembles_compound (hp : ∀ event ∈ parts, event.isPart = true) :
    Assembles combinator parts [[.described combinator parts]] := by
  rintro draft hd rfl
  exact Draft.next_of_parts hp hd

theorem Assembles.join {next : Combinator} {members : List (List Step)}
    (hp : ∀ event ∈ parts, event.isPart = true) (h : Assembles next events members) :
    Assembles combinator (parts ++ .combinator next :: events)
      (members.modifyHead (.described combinator parts :: ·)) := by
  rintro draft hd rfl
  rw [List.foldl_append, List.foldl_cons, Draft.foldl_described hp hd]
  apply (h _ rfl rfl).trans
  rw [List.modifyHead_modifyHead]
  simp [Draft.next, Draft.closeStep, Function.comp_def, Step.joinedBy, Step.described]

theorem Assembles.comma {members : List (List Step)}
    (hp : ∀ event ∈ parts, event.isPart = true) (h : Assembles .none events members) :
    Assembles combinator (parts ++ .nextSelector :: events)
      ([.described combinator parts] :: members) := by
  rintro draft hd rfl
  have hnext := Draft.next_of_parts hp hd
  rw [List.foldl_append, List.foldl_cons]
  apply (h _ rfl rfl).trans
  rw [hnext]
  cases members <;> simp [Draft.next, Draft.closeMember]

theorem steps_injective : Function.Injective Selector.steps := by
  rintro ⟨front, _⟩ ⟨back, _⟩ h
  cases h
  rfl

theorem Assembles.ofEvents_eq_iff {members : List (List Step)} {list : SelectorList}
    (h : Assembles .none events members) :
    SelectorList.ofEvents events = list ↔ list.members.map Selector.steps = members := by
  have hd := h {} rfl rfl
  have hm : (SelectorList.ofEvents events).members.map Selector.steps = members := by
    apply hd.trans
    cases members <;> rfl
  constructor
  · rintro rfl
    exact hm
  · intro hl
    obtain ⟨others⟩ := list
    exact congrArg SelectorList.mk (List.map_injective_iff.mpr steps_injective (hm.trans hl.symm))

end Assemble

namespace Grammar

variable {ts after gap : List Token} {parts events : List Event} {steps : List Step}
  {members : List (List Step)} {combinator : Combinator} {list : SelectorList}

theorem Part.isPart {event : Event} (h : Part ts event) : event.isPart = true := by
  cases h <;> rfl

theorem Parts.isPart (h : Parts ts parts) : ∀ event ∈ parts, event.isPart = true := by
  induction h with
  | nil => exact nofun
  | cons hp _ ih => exact List.forall_mem_cons.mpr ⟨hp.isPart, ih⟩

theorem Compound.isPart (h : Compound ts parts) : ∀ event ∈ parts, event.isPart = true := by
  cases h with
  | typed hps => exact List.forall_mem_cons.mpr ⟨rfl, hps.isPart⟩
  | star hps => exact List.forall_mem_cons.mpr ⟨rfl, hps.isPart⟩
  | untyped hps => exact hps.isPart

theorem Joint.event {event : Event} (h : Joint ts event) :
    (∃ next, event = .combinator next) ∨ event = .nextSelector := by
  cases h with
  | blank => exact .inl ⟨_, rfl⟩
  | sign hs _ _ =>
    cases hs with
    | comma => exact .inr rfl
    | _ => exact .inl ⟨_, rfl⟩

theorem Steps.compounds (h : Steps combinator ts steps)
    (last : ∀ {combinator ts parts}, Compound ts parts → ∃ events, Compounds (ts ++ after) events ∧
      Assembles combinator events ([.described combinator parts] :: members)) :
    ∃ events, Compounds (ts ++ after) events ∧ Assembles combinator events (steps :: members) := by
  induction h with
  | last hc => exact last hc
  | cons hc hj _ ih =>
    obtain ⟨events, hcs, ha⟩ := ih
    refine ⟨_, ?_, ha.join hc.isPart⟩
    rw [List.append_assoc, List.append_assoc]
    exact .cons hc hj hcs

theorem Members.compounds (h : Members combinator ts members) (hg : Gap gap) :
    ∃ events, Compounds (ts ++ gap) events ∧ Assembles combinator events members := by
  induction h with
  | last hs => exact hs.compounds fun hc => ⟨_, .last hc hg, assembles_compound hc.isPart⟩
  | cons hs hj _ ih =>
    obtain ⟨events, hcs, ha⟩ := ih
    rw [List.append_assoc, List.append_assoc]
    exact hs.compounds fun hc => ⟨_, .cons hc hj hcs, ha.comma hc.isPart⟩

theorem Members.prepend {js : List Token} {next : Combinator} {after : List Token}
    (hc : Compound ts parts) (hj : Joint js (.combinator next)) (h : Members next after members) :
    Members combinator (ts ++ (js ++ after)) (members.modifyHead (.described combinator parts :: ·)) := by
  cases h with
  | last hs => exact .last (.cons hc hj hs)
  | @cons _ front steps joint rest members hs hn hm =>
    have ha : ts ++ (js ++ (front ++ (joint ++ rest))) = (ts ++ (js ++ front)) ++ (joint ++ rest) := by
      simp only [List.append_assoc]
    rw [ha]
    exact .cons (.cons hc hj hs) hn hm

/-- Compounds are the selectors of some members and a gap behind them. -/
theorem Compounds.split_members (h : Compounds ts events) (combinator : Combinator) :
    ∃ front gap members, ts = front ++ gap ∧ Gap gap ∧ Members combinator front members ∧
      Assembles combinator events members := by
  induction h generalizing combinator with
  | last hc hg => exact ⟨_, _, _, rfl, hg, .last (.last hc), assembles_compound hc.isPart⟩
  | @cons ts parts js joint rest more hc hj _ ih =>
    rcases hj.event with ⟨next, rfl⟩ | rfl
    · obtain ⟨front, gap, members, rfl, hg, hm, ha⟩ := ih next
      refine ⟨ts ++ (js ++ front), gap, _, ?_, hg, hm.prepend hc hj, ha.join hc.isPart⟩
      simp only [List.append_assoc]
    · obtain ⟨front, gap, members, rfl, hg, hm, ha⟩ := ih .none
      refine ⟨ts ++ (js ++ front), gap, _, ?_, hg, .cons (.last hc) hj hm,
        ha.comma hc.isPart⟩
      simp only [List.append_assoc]

theorem derives_iff :
    Derives ts list ↔ ∃ events, Whole ts events ∧ SelectorList.ofEvents events = list := by
  constructor
  · rintro ⟨hg, hm, hh⟩
    obtain ⟨events, hcs, ha⟩ := hm.compounds hh
    exact ⟨events, .intro hg hcs, ha.ofEvents_eq_iff.mpr rfl⟩
  · rintro ⟨events, ⟨hg, hcs⟩, he⟩
    obtain ⟨front, gap, members, rfl, hh, hm, ha⟩ := hcs.split_members .none
    obtain rfl := ha.ofEvents_eq_iff.mp he
    exact .intro hg hm hh

end Grammar

/-- A text is read as a list exactly if it has tokens from which the grammar derives the list. -/
theorem parse_eq_ok_iff_derives (text : String) (list : SelectorList) :
    SelectorList.parse text = .ok list ↔ ∃ placed, tokens text.toList = .ok placed ∧
      Grammar.Derives (placed.map PlacedToken.token) list := by
  rw [parse_eq_ok_iff]
  constructor
  · rintro ⟨ts, events, hl, hw, he⟩
    obtain ⟨placed, ht, rfl⟩ := lexemes_eq_some_iff.mp hl
    exact ⟨placed, ht, Grammar.derives_iff.mpr ⟨events, hw, he⟩⟩
  · rintro ⟨placed, ht, hd⟩
    obtain ⟨events, hw, he⟩ := Grammar.derives_iff.mp hd
    exact ⟨_, events, lexemes_eq_some_iff.mpr ⟨placed, ht, rfl⟩, hw, he⟩

end TreeQuery
