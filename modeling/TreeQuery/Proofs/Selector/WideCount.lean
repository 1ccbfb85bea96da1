import TreeQuery.Proofs.Selector.Canonical

/-! Reading never adds a blank character beyond ASCII.
Their number does not grow from a text to its tokens, from tokens to events and from events to the
list; from a list to its canonical text it stays the same. -/
namespace TreeQuery

def nameWide (name : String) : Nat := wideCount name.toList

def namesWide (names : List String) : Nat := (names.map nameWide).sum

/-- The blank characters of a step, counted on the tokens meant by its canonical text. -/
def Step.wide (step : Step) : Nat := tokensWide (step.events.flatMap Event.tokens)

def stepsWide (steps : List Step) : Nat := (steps.map Step.wide).sum

def membersWide (members : List Selector) : Nat :=
  (members.map fun member => stepsWide member.steps).sum

def Draft.wide (draft : Draft) : Nat :=
  membersWide draft.members.toList + stepsWide draft.steps.toList + draft.current.wide

theorem tokensWide_flatMap {α : Type} (f : α → List Token) (items : List α) :
    tokensWide (items.flatMap f) = (items.map fun a => tokensWide (f a)).sum := by
  induction items with
  | nil => rfl
  | cons a items ih => rw [List.flatMap_cons, tokensWide_append, ih, List.map_cons, List.sum_cons]

section Text

theorem wideCount_writeNameRest (name : List Char) :
    wideCount (writeNameRest name) = wideCount name := by
  have hescape : isWide '\\' = false := by decide
  induction name with
  | nil => rfl
  | cons c name ih =>
    rw [writeNameRest]
    split <;> simp [wideCount_cons, ih, hescape]

theorem wideCount_writeName (name : List Char) : wideCount (writeName name) = wideCount name := by
  have hescape : isWide '\\' = false := by decide
  cases name with
  | nil => rfl
  | cons c name =>
    rw [writeName]
    split <;> simp [wideCount_cons, wideCount_writeNameRest, hescape]

theorem wideCount_writeQuoted (value : List Char) :
    wideCount (writeQuoted value) = wideCount value := by
  have hescape : isWide '\\' = false := by decide
  have hquote : isWide '"' = false := by decide
  have hrest : wideCount (writeQuotedRest value) = wideCount value := by
    induction value with
    | nil => simp [writeQuotedRest, wideCount_cons, hquote]
    | cons c value ih =>
      rw [writeQuotedRest]
      split <;> simp [wideCount_cons, ih, hescape]
  rw [writeQuoted, wideCount_cons, hrest, hquote]
  rfl

theorem AttributeSelector.wideCount_write (test : AttributeSelector) :
    wideCount test.write = tokensWide test.tokens := by
  have hopen : isWide '[' = false := by decide
  have hclose : isWide ']' = false := by decide
  have hsymbol : wideCount test.operator.symbol.toList = 0 := by cases test.operator <;> decide
  unfold write tokens
  cases test.value with
  | none =>
    simp [wideCount_cons, wideCount_append, wideCount_writeName, hopen, hclose, Token.wideCount]
  | some value =>
    simp [wideCount_cons, wideCount_append, wideCount_writeName, wideCount_writeQuoted, hopen,
      hclose, hsymbol, Token.wideCount]

theorem Event.wideCount_write (event : Event) : wideCount event.write = tokensWide event.tokens := by
  have hname : ∀ (c : Char) (token : Token) (name : String), isWide c = false →
      token.wideCount = 0 →
      wideCount (c :: writeName name.toList) = tokensWide [token, .ident name] := by
    intro c token name hc ht
    simp only [wideCount_cons, wideCount_writeName, hc, tokensWide_cons, tokensWide_nil, ht]
    exact (Nat.zero_add _).symm
  cases event with
  | element name =>
    rw [write, spelled, tokens]
    split
    · decide
    · exact wideCount_writeName name.toList
  | id name => exact hname '#' .hash name (by decide) rfl
  | className name => exact hname '.' .dot name (by decide) rfl
  | test wanted => exact wanted.wideCount_write
  | pseudoClass name => exact hname ':' .colon name (by decide) rfl
  | pseudoElement name =>
    rw [write, spelled, wideCount_cons]
    exact hname ':' .doubleColon name (by decide) rfl
  | combinator joint => cases joint <;> decide
  | nextSelector => decide

theorem wideCount_flatMap_write (events : List Event) :
    wideCount (events.flatMap Event.write) = tokensWide (events.flatMap Event.tokens) := by
  induction events with
  | nil => rfl
  | cons event events ih =>
    rw [List.flatMap_cons, List.flatMap_cons, wideCount_append, tokensWide_append, ih,
      event.wideCount_write]

end Text

namespace Grammar

variable {ts : List Token} {event : Event} {events : List Event}

theorem Part.tokensWide (h : Part ts event) :
    TreeQuery.tokensWide event.tokens ≤ TreeQuery.tokensWide ts := by
  cases h with
  | id ht => cases ht <;> exact Nat.le_refl _
  | className name => exact Nat.le_refl _
  | test ht =>
    cases ht with
    | present hg hh =>
      simp [Event.tokens, AttributeSelector.tokens, AttributeSelector.present, Token.wideCount]
      omega
    | compare hg hh hi hj hv =>
      have hvalue := hv
      cases hvalue <;>
        simp [Event.tokens, AttributeSelector.tokens, AttributeSelector.compare, Token.wideCount]
        <;> omega
  | pseudoClass name => exact Nat.le_refl _
  | pseudoElement name => exact Nat.le_refl _

theorem Parts.tokensWide (h : Parts ts events) :
    TreeQuery.tokensWide (events.flatMap Event.tokens) ≤ TreeQuery.tokensWide ts := by
  induction h with
  | nil => exact Nat.le_refl _
  | cons hp _ ih =>
    rw [List.flatMap_cons, tokensWide_append, tokensWide_append]
    exact Nat.add_le_add hp.tokensWide ih

theorem Compound.tokensWide (h : Compound ts events) :
    TreeQuery.tokensWide (events.flatMap Event.tokens) ≤ TreeQuery.tokensWide ts := by
  cases h with
  | @typed name _ _ hp =>
    have hname : TreeQuery.tokensWide (Event.element name).tokens ≤
        (Token.ident name).wideCount := by
      rw [Event.tokens]
      split
      · exact Nat.zero_le _
      · exact Nat.le_refl _
    exact Nat.le_trans (tokensWide_append ..).le (Nat.add_le_add hname hp.tokensWide)
  | star hp =>
    have hstar : TreeQuery.tokensWide (Event.element "*").tokens ≤ Token.star.wideCount := by
      decide
    exact Nat.le_trans (tokensWide_append ..).le (Nat.add_le_add hstar hp.tokensWide)
  | untyped hp => exact hp.tokensWide

theorem Joint.tokensWide (h : Joint ts event) : TreeQuery.tokensWide event.tokens = 0 := by
  cases h with
  | blank => rfl
  | sign hs _ _ => cases hs <;> rfl

theorem Compounds.tokensWide (h : Compounds ts events) :
    TreeQuery.tokensWide (events.flatMap Event.tokens) ≤ TreeQuery.tokensWide ts := by
  induction h with
  | last hc _ =>
    have := hc.tokensWide
    rw [tokensWide_append]
    omega
  | cons hc hj _ ih =>
    have := hc.tokensWide
    have := hj.tokensWide
    simp only [List.flatMap_append, List.flatMap_cons, tokensWide_append]
    omega

theorem Whole.tokensWide (h : Whole ts events) :
    TreeQuery.tokensWide (events.flatMap Event.tokens) ≤ TreeQuery.tokensWide ts := by
  obtain ⟨_, hc⟩ := h
  have := hc.tokensWide
  rw [tokensWide_append]
  omega

end Grammar

section Assemble

theorem tokensWide_element (name : String) :
    tokensWide (Event.element name).tokens = nameWide name := by
  rw [Event.tokens]
  split
  · rename_i hn
    subst hn
    decide
  · rfl

theorem tokensWide_id (name : String) : tokensWide (Event.id name).tokens = nameWide name :=
  Nat.zero_add _

theorem tokensWide_className (name : String) :
    tokensWide (Event.className name).tokens = nameWide name :=
  Nat.zero_add _

theorem tokensWide_pseudoClass (name : String) :
    tokensWide (Event.pseudoClass name).tokens = nameWide name :=
  Nat.zero_add _

theorem tokensWide_pseudoElement (name : String) :
    tokensWide (Event.pseudoElement name).tokens = nameWide name :=
  Nat.zero_add _

theorem Step.wide_eq (step : Step) : step.wide = step.element.elim 0 nameWide +
    step.id.elim 0 nameWide + namesWide step.classes.names +
    (step.tests.map fun test => tokensWide test.tokens).sum + namesWide step.pseudoClasses +
    namesWide step.pseudoElements := by
  have htype : tokensWide (step.typeEvents.flatMap Event.tokens) =
      step.element.elim 0 nameWide := by
    rw [typeEvents]
    cases step.element with
    | none => cases step.isUniversal <;> decide
    | some name =>
      dsimp only
      rw [List.flatMap_singleton, tokensWide_element]
      rfl
  have hid : tokensWide ((step.id.toList.map Event.id).flatMap Event.tokens) =
      step.id.elim 0 nameWide := by
    cases step.id with
    | none => rfl
    | some name => exact tokensWide_id name
  rw [wide, events, partEvents]
  simp only [List.flatMap_append, tokensWide_append, htype, hid]
  simp only [List.flatMap_map, tokensWide_flatMap, tokensWide_className, tokensWide_pseudoClass,
    tokensWide_pseudoElement]
  simp only [namesWide, Event.tokens, Nat.add_assoc]

theorem namesWide_concat (names : List String) (name : String) :
    namesWide (names ++ [name]) = namesWide names + nameWide name := by
  simp [namesWide]

theorem namesWide_insertAscending (name : String) (names : List String) :
    namesWide (insertAscending name names) ≤ namesWide names + nameWide name := by
  induction names with
  | nil => exact Nat.le_of_eq (Nat.add_comm _ _)
  | cons other rest ih =>
    rw [insertAscending]
    split
    · exact Nat.le_of_eq (Nat.add_comm _ _)
    · split
      · exact Nat.le_add_right _ _
      · simp only [namesWide, List.map_cons, List.sum_cons] at *
        omega

theorem stepsWide_concat (steps : List Step) (step : Step) :
    stepsWide (steps ++ [step]) = stepsWide steps + step.wide := by
  simp [stepsWide]

theorem membersWide_concat (members : List Selector) (member : Selector) :
    membersWide (members ++ [member]) = membersWide members + stepsWide member.steps := by
  simp [membersWide]

theorem stepsWide_closeStep (draft : Draft) :
    stepsWide draft.closeStep.steps.toList =
      stepsWide draft.steps.toList + draft.current.wide := by
  rw [Draft.closeStep, Array.toList_push, stepsWide_concat]
  rfl

theorem Step.wide_withElement (step : Step) (name : String) :
    (step.withElement name).wide ≤ step.wide + nameWide name := by
  rw [wide_eq, wide_eq, withElement]
  dsimp only
  split
  · simp only [Option.elim_none]
    omega
  · simp only [Option.elim_some]
    omega

theorem Step.wide_withId (step : Step) (name : String) :
    (step.withId name).wide ≤ step.wide + nameWide name := by
  rw [wide_eq, wide_eq]
  simp only [withId, Option.elim_some]
  omega

theorem Step.wide_withClass (step : Step) (name : String) :
    (step.withClass name).wide ≤ step.wide + nameWide name := by
  have hi := namesWide_insertAscending name step.classes.names
  rw [wide_eq, wide_eq]
  simp only [withClass, NameSet.insert]
  omega

theorem Step.wide_withTest (step : Step) (test : AttributeSelector) :
    (step.withTest test).wide = step.wide + tokensWide test.tokens := by
  rw [wide_eq, wide_eq]
  simp only [withTest, List.map_append, List.sum_append, List.map_cons, List.map_nil,
    List.sum_cons, List.sum_nil]
  omega

theorem Step.wide_withPseudoClass (step : Step) (name : String) :
    (step.withPseudoClass name).wide = step.wide + nameWide name := by
  rw [wide_eq, wide_eq]
  simp only [withPseudoClass, namesWide_concat]
  omega

theorem Step.wide_withPseudoElement (step : Step) (name : String) :
    (step.withPseudoElement name).wide = step.wide + nameWide name := by
  rw [wide_eq, wide_eq]
  simp only [withPseudoElement, namesWide_concat]
  omega

theorem Draft.wide_next (draft : Draft) (event : Event) :
    (draft.next event).wide ≤ draft.wide + tokensWide event.tokens := by
  have hcurrent : ∀ {step : Step}, step.wide ≤ draft.current.wide + tokensWide event.tokens →
      Draft.wide { draft with current := step } ≤ draft.wide + tokensWide event.tokens := by
    intro step hs
    simp only [Draft.wide]
    omega
  have hany : Step.any.wide = 0 := by decide
  have hclose := stepsWide_closeStep draft
  cases event with
  | element name =>
    apply hcurrent
    rw [tokensWide_element]
    exact draft.current.wide_withElement name
  | id name =>
    apply hcurrent
    rw [tokensWide_id]
    exact draft.current.wide_withId name
  | className name =>
    apply hcurrent
    rw [tokensWide_className]
    exact draft.current.wide_withClass name
  | test wanted =>
    apply hcurrent
    exact (draft.current.wide_withTest wanted).le
  | pseudoClass name =>
    apply hcurrent
    rw [tokensWide_pseudoClass]
    exact (draft.current.wide_withPseudoClass name).le
  | pseudoElement name =>
    apply hcurrent
    rw [tokensWide_pseudoElement]
    exact (draft.current.wide_withPseudoElement name).le
  | combinator joint =>
    have hwide : (draft.next (.combinator joint)).wide = membersWide draft.members.toList +
        stepsWide draft.closeStep.steps.toList + Step.any.wide := rfl
    rw [hwide, hclose, hany, wide]
    omega
  | nextSelector =>
    obtain ⟨member, hm, hs⟩ := draft.members_next
    have hwide : (draft.next .nextSelector).wide =
        membersWide (draft.next .nextSelector).members.toList + stepsWide [] + Step.any.wide := rfl
    have hnil : stepsWide [] = 0 := rfl
    rw [hwide, hm, membersWide_concat, hs, hclose, hany, wide]
    omega

/-- What is assembled from events has no more blank characters than they have. -/
theorem membersWide_ofEvents (events : List Event) :
    membersWide (SelectorList.ofEvents events).members ≤
      tokensWide (events.flatMap Event.tokens) := by
  have main : ∀ (events : List Event) (draft : Draft),
      (events.foldl Draft.next draft).wide ≤
        draft.wide + tokensWide (events.flatMap Event.tokens) := by
    intro events
    induction events with
    | nil => exact fun _ => Nat.le_refl _
    | cons event events ih =>
      intro draft
      have hn := draft.wide_next event
      have hr := ih (draft.next event)
      rw [List.foldl_cons, List.flatMap_cons, tokensWide_append]
      omega
  have hstart : Draft.wide {} = 0 := by decide
  have hevents := main events {}
  have hlast := (events.foldl Draft.next {}).wide_next .nextSelector
  have hnext : tokensWide Event.nextSelector.tokens = 0 := rfl
  have hfinish : membersWide (SelectorList.ofEvents events).members ≤
      ((events.foldl Draft.next {}).next .nextSelector).wide :=
    Nat.le_trans (Nat.le_add_right _ _) (Nat.le_add_right _ _)
  omega

theorem tokensWide_stepsEvents (steps : List Step) :
    tokensWide ((stepsEvents steps).flatMap Event.tokens) = stepsWide steps := by
  have hjoined : ∀ step : Step,
      tokensWide (step.joinedEvents.flatMap Event.tokens) = step.wide := by
    intro step
    have hc : tokensWide step.combinator.tokens = 0 := by cases step.combinator <;> rfl
    rw [Step.joinedEvents, List.flatMap_cons, tokensWide_append]
    change tokensWide step.combinator.tokens + _ = _
    rw [hc, Nat.zero_add]
    rfl
  cases steps with
  | nil => rfl
  | cons first rest =>
    rw [stepsEvents, List.flatMap_append, tokensWide_append, List.flatMap_assoc]
    change first.wide + _ = _
    rw [tokensWide_flatMap]
    simp only [hjoined]
    rfl

theorem tokensWide_membersEvents (members : List Selector) :
    tokensWide ((membersEvents members).flatMap Event.tokens) = membersWide members := by
  cases members with
  | nil => rfl
  | cons first rest =>
    have hmember : ∀ member : Selector, tokensWide
        ((Event.nextSelector :: stepsEvents member.steps).flatMap Event.tokens) =
          stepsWide member.steps := by
      intro member
      rw [List.flatMap_cons, tokensWide_append, tokensWide_stepsEvents]
      exact Nat.zero_add _
    rw [membersEvents, List.flatMap_append, tokensWide_append, List.flatMap_assoc,
      tokensWide_stepsEvents, tokensWide_flatMap]
    simp only [hmember]
    rfl

theorem wide_le_of_whole {ts : List Token} {events : List Event} (h : Grammar.Whole ts events) :
    tokensWide ((SelectorList.ofEvents events).events.flatMap Event.tokens) ≤ tokensWide ts := by
  rw [SelectorList.events, tokensWide_membersEvents]
  exact Nat.le_trans (membersWide_ofEvents events) h.tokensWide

end Assemble

end TreeQuery
