import TreeQuery.Proofs.Selector.Joined

/-! Texts of single selectors with one more part behind them.
Where no blank space stands between them, the part belongs to the last compound, so that the last
step asks for it too. Only an id takes the place of what was asked before. -/
namespace TreeQuery

def Step.withPart (step : Step) : Event → Step
  | .element name => step.withElement name
  | .id name => step.withId name
  | .className name => step.withClass name
  | .test test => step.withTest test
  | .pseudoClass name => step.withPseudoClass name
  | .pseudoElement name => step.withPseudoElement name
  | .combinator _ | .nextSelector => step

def Selector.withPart (selector : Selector) (event : Event) : Selector :=
  ⟨selector.steps.dropLast ++ [selector.target.withPart event], List.concat_ne_nil _ _⟩

variable {c : Char} {text : List Char} {ts us : List Token} {event : Event}

namespace Grammar

variable {combinator : Combinator} {parts : List Event} {steps : List Step}

theorem Parts.concat (h : Parts ts parts) (hp : Part us event) :
    Parts (ts ++ us) (parts ++ [event]) := by
  induction h with
  | nil =>
    have hone : Parts (us ++ []) [event] := .cons hp .nil
    rwa [List.append_nil] at hone
  | cons hfirst _ ih =>
    rw [List.append_assoc]
    exact .cons hfirst ih

theorem Compound.concat (h : Compound ts parts) (hp : Part us event) :
    Compound (ts ++ us) (parts ++ [event]) := by
  cases h with
  | typed hps => exact .typed (hps.concat hp)
  | star hps => exact .star (hps.concat hp)
  | untyped hps => exact .untyped (hps.concat hp)

theorem Part.described_concat (hp : Part us event) (combinator : Combinator) (parts : List Event) :
    Step.described combinator (parts ++ [event]) =
      (Step.described combinator parts).withPart event := by
  cases hp <;>
    simp [Step.described, Step.withPart, Step.withId, Step.withClass, Step.withTest,
      Step.withPseudoClass, Step.withPseudoElement, List.filterMap_cons, NameSet.ofList_concat]

theorem Steps.ne_nil (h : Steps combinator ts steps) : steps ≠ [] := by
  cases h <;> exact List.cons_ne_nil _ _

theorem Steps.concat (h : Steps combinator ts steps) (hp : Part us event) :
    Steps combinator (ts ++ us)
      (steps.dropLast ++ [(steps.getLast h.ne_nil).withPart event]) := by
  induction h with
  | @last combinator ts parts hc =>
    have hd := hp.described_concat combinator parts
    have hs : Steps combinator _ _ := .last (hc.concat hp)
    rwa [hd] at hs
  | cons hc hj hs ih =>
    rw [List.append_assoc, List.append_assoc, List.dropLast_cons_of_ne_nil hs.ne_nil,
      List.getLast_cons hs.ne_nil]
    exact .cons hc hj ih

theorem Members.concat {member : Selector} (h : Members combinator ts [member.steps])
    (hp : Part us event) : Members combinator (ts ++ us) [(member.withPart event).steps] := by
  cases h with
  | last hs => exact .last (hs.concat hp)
  | cons _ _ hm => exact absurd hm nofun

end Grammar

section Text

theorem isSymbol_of_read {front : Front Token} (h : Token.read c text = .ok front)
    (hs : Grammar.startsPart front.content = true) : isSymbol c = true := by
  by_cases hb : isBlank c = true
  · rw [read_blank hb] at h
    cases h
    cases hs
  rw [Token.read, if_neg hb] at h
  split at h
  · obtain ⟨inner, -, rfl⟩ := map_eq_ok_iff.mp h
    cases hs
  · rename_i hq
    split at h
    · obtain ⟨inner, -, rfl⟩ := map_eq_ok_iff.mp h
      simp only [Front.map, Token.ofName] at hs
      split at hs <;> cases hs
    · rename_i hn
      rw [not_or] at hq hn
      simp [isSymbol, hb, hq, hn]

theorem stopAt_part (hc : ∃ token ∈ ts.getLast?, Grammar.closesCompound token = true)
    (hl : lexemes text = some us) (hp : Grammar.Part us event) : StopAt ts text := by
  obtain ⟨first, rest, rfl, hstarts⟩ := hp.starts
  obtain ⟨last, hlast, hcloses⟩ := hc
  intro token htoken c hhead
  cases hlast.symm.trans htoken
  have he : c ≠ '=' := by
    rintro rfl
    cases (head_of_lexemes hl _ hhead).2 rfl
    cases hstarts
  obtain ⟨rest, rfl⟩ := List.head?_eq_some_iff.mp hhead
  obtain ⟨front, hr, hf, -⟩ := read_of_lexemes hl
  have hsymbol := isSymbol_of_read hr (hf ▸ hstarts)
  simp only [isSymbol, Bool.and_eq_true, Bool.not_eq_true', bne_iff_ne] at hsymbol
  obtain ⟨⟨-, hs⟩, hn⟩ := hsymbol
  cases last <;> simp_all [Grammar.closesCompound, Token.runsOn]

theorem eq_nil_of_gap {gap : List Token} (hg : Grammar.Gap gap)
    (hl : ∀ c ∈ text.getLast?, isBlank c = false) (h : lexemes text = some (ts ++ gap)) :
    gap = [] := by
  cases hg with
  | absent => rfl
  | present =>
    obtain ⟨front, back, rfl, -, hback, -⟩ := exists_split h
    have hne : back ≠ [] := by
      rintro rfl
      cases lexemes_nil.symm.trans hback
    have hlast : back.getLast hne ∈ (front ++ back).getLast? := by
      rw [List.getLast?_append_of_ne_nil _ hne]
      exact List.getLast?_eq_some_getLast hne
    have hb := blanks_of_gap .present hback _ (List.getLast_mem hne)
    exact absurd (hb.symm.trans (hl _ hlast)) nofun

theorem parse_part {text part : String} {member : Selector}
    (h : SelectorList.parse text = .ok ⟨[member]⟩)
    (hl : ∀ c ∈ text.toList.getLast?, isBlank c = false)
    (hus : lexemes part.toList = some us) (hp : Grammar.Part us event) :
    SelectorList.parse (text ++ part) = .ok ⟨[member.withPart event]⟩ := by
  obtain ⟨_, hts, hg, hm, hh⟩ := parse_eq_ok_iff_lexemes.mp h
  rw [← List.append_assoc] at hts
  obtain rfl := eq_nil_of_gap hh hl hts
  rw [List.append_nil] at hts
  obtain ⟨last, hlast, hcloses⟩ := hm.ends
  have hgives : Gives text.toList _ part.toList := gives_of_lexemes hts <|
    stopAt_part ⟨last, List.mem_getLast?_append_of_mem_getLast? hlast, hcloses⟩ hus hp
  have hd : Grammar.Derives _ ⟨[member.withPart event]⟩ :=
    .intro hg (hm.concat hp) .absent
  refine parse_eq_ok_iff_lexemes.mpr ⟨_, ?_, hd⟩
  rw [String.toList_append, hgives, hus]
  simp only [Option.map_some, List.append_assoc, List.append_nil]

end Text

end TreeQuery
