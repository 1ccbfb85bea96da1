import TreeQuery.Proofs.Selector.WideCount
import TreeQuery.Proofs.Selector.Writing

/-! When the canonical text of a list is read back as the list.
It has to be a list that text can say, and no name may start with a blank character beyond ASCII:
such a character is lost, and no reading of the rest can bring it back. -/
namespace TreeQuery

/-- No name in the step starts with a blank character beyond ASCII. -/
structure Step.Writable (step : Step) : Prop where
  element : ∀ name, step.element = some name → startsWide name.toList = false
  id : ∀ name, step.id = some name → startsWide name.toList = false
  classes : ∀ name ∈ step.classes, startsWide name.toList = false
  tests : ∀ test ∈ step.tests, startsWide test.name.toList = false
  pseudoClasses : ∀ name ∈ step.pseudoClasses, startsWide name.toList = false
  pseudoElements : ∀ name ∈ step.pseudoElements, startsWide name.toList = false

def SelectorList.Writable (list : SelectorList) : Prop :=
  ∀ member ∈ list.members, ∀ step ∈ member.steps, step.Writable

/-- A text whose tokens have fewer blank characters beyond ASCII than the text itself. -/
def Lossy (text : List Char) : Prop :=
  ∀ ts, lexemes text = some ts → tokensWide ts < wideCount text

variable {text front : List Char} {ts used : List Token} {event : Event} {events : List Event}
  {name : String}

section Writable

theorem Step.writable_iff {step : Step} :
    step.Writable ↔ ∀ event ∈ step.events, event.Writable := by
  have htype : (∀ event ∈ step.typeEvents, event.Writable) ↔
      ∀ name, step.element = some name → startsWide name.toList = false := by
    have hstar : (Event.element "*").Writable := show startsWide "*".toList = false by decide
    unfold typeEvents
    cases step.element with
    | none =>
      refine iff_of_true ?_ nofun
      dsimp only
      split
      · exact List.forall_mem_singleton.mpr hstar
      · exact nofun
    | some name => simp [Event.Writable]
  have hid : (∀ event ∈ step.id.toList.map Event.id, event.Writable) ↔
      ∀ name, step.id = some name → startsWide name.toList = false := by
    cases step.id <;> simp [Event.Writable]
  rw [events, partEvents]
  simp only [List.forall_mem_append, htype, hid]
  simp only [List.forall_mem_map, Event.Writable]
  constructor
  · intro h
    exact ⟨h.element, ⟨⟨⟨⟨h.id, h.classes⟩, h.tests⟩, h.pseudoClasses⟩, h.pseudoElements⟩⟩
  · rintro ⟨helement, ⟨⟨⟨⟨hid, hclasses⟩, htests⟩, hpseudoClasses⟩, hpseudoElements⟩⟩
    exact ⟨helement, hid, hclasses, htests, hpseudoClasses, hpseudoElements⟩

theorem stepsEvents_writable_iff {steps : List Step} :
    (∀ event ∈ stepsEvents steps, event.Writable) ↔ ∀ step ∈ steps, step.Writable := by
  cases steps with
  | nil => simp [stepsEvents]
  | cons first rest =>
    have hjoint : ∀ combinator, (Event.combinator combinator).Writable := fun _ => trivial
    simp only [stepsEvents, Step.joinedEvents, List.forall_mem_append, List.forall_mem_cons,
      List.forall_mem_flatMap, hjoint, true_and, Step.writable_iff]

theorem SelectorList.writable_iff {list : SelectorList} :
    list.Writable ↔ ∀ event ∈ list.events, event.Writable := by
  obtain ⟨members⟩ := list
  cases members with
  | nil => simp [Writable, SelectorList.events, membersEvents]
  | cons first rest =>
    have hjoint : Event.nextSelector.Writable := trivial
    simp only [Writable, SelectorList.events, membersEvents, List.forall_mem_append,
      List.forall_mem_cons, List.forall_mem_flatMap, hjoint, true_and, stepsEvents_writable_iff]

end Writable

section Lossy

theorem lossy_of_wide {c : Char} (hc : isWide c = true) : Lossy (c :: text) := by
  have hb : isBlank c = true := by
    rw [isWide, Bool.and_eq_true] at hc
    exact hc.1
  intro ts h
  rw [lexemes_blank hb] at h
  obtain ⟨rest, hr, rfl⟩ := Option.map_eq_some_iff.mp h
  have hrest : tokensWide rest ≤ wideCount (text.dropWhile isBlank) := wideCount_lexemes hr
  have hdrop : wideCount (text.dropWhile isBlank) ≤ wideCount text :=
    (List.dropWhile_sublist isBlank).countP_le
  have hblank : Token.blank.wideCount = 0 := rfl
  rw [tokensWide_cons, wideCount_cons, if_pos hc, hblank]
  omega

theorem Lossy.after (hl : Lossy text) (hg : Gives front ts text)
    (hw : tokensWide ts ≤ wideCount front) : Lossy (front ++ text) := by
  intro us h
  rw [hg] at h
  obtain ⟨rest, hr, rfl⟩ := Option.map_eq_some_iff.mp h
  have := hl rest hr
  rw [tokensWide_append, wideCount_append]
  omega

theorem Lossy.afterBlank (hl : Lossy text) : Lossy ([' '] ++ text) := by
  by_cases hf : Firm text
  · exact hl.after (gives_blank hf) (Nat.zero_le _)
  · cases text with
    | nil => exact absurd nofun hf
    | cons c text =>
      have hc : isBlank c = true := by
        by_contra hc
        apply hf
        intro d hd
        cases hd
        exact Bool.eq_false_iff.mpr hc
      intro ts h
      have h : lexemes (c :: text) = some ts :=
        (lexemes_blank_blank (by decide) hc).symm.trans h
      rw [wideCount_append]
      exact Nat.lt_of_lt_of_le (hl ts h) (Nat.le_add_left _ _)

theorem lossy_name (hw : ¬startsWide name.toList = false) :
    Lossy (writeName name.toList ++ text) := by
  cases hn : name.toList with
  | nil => rw [hn] at hw; exact absurd rfl hw
  | cons c rest =>
    rw [hn, Bool.not_eq_false] at hw
    have hc : isWide c = true := hw
    have hd : c.isDigit = false := by
      have hlarge : 128 ≤ c.toNat := by
        rw [isWide, Bool.and_eq_true, decide_eq_true_iff] at hc
        exact hc.2
      simp [Char.isDigit, UInt32.le_iff_toNat_le]
      omega
    rw [writeName, if_pos (by simp [isNameChar_of_isWide hc, hd])]
    exact lossy_of_wide hc

theorem lossy_element (hw : ¬(Event.element name).Writable) :
    Lossy ((Event.element name).write ++ text) := by
  have hn : name ≠ "*" := by
    rintro rfl
    exact hw (show startsWide "*".toList = false by decide)
  rw [Event.write, Event.spelled, if_neg hn]
  exact lossy_name hw

theorem lossy_part (h : Grammar.Part used event) (hr : event.Regular) (hw : ¬event.Writable) :
    Lossy (event.write ++ text) := by
  have after : ∀ {c : Char} {name : String} {text : List Char},
      ¬startsWide name.toList = false → isSymbol c = true → (∀ d, Token.ofPair c d = none) →
      (Token.ofSymbol c).wideCount = 0 → Lossy ([c] ++ (writeName name.toList ++ text)) := by
    intro c name text hn hc hp hz
    apply (lossy_name hn).after (gives_symbol hc fun d _ => hp d)
    rw [tokensWide_cons, hz]
    exact Nat.zero_le _
  cases h with
  | id _ => exact after hw (by decide) (fun _ => rfl) rfl
  | className name => exact after hw (by decide) (fun _ => rfl) rfl
  | test _ =>
    rw [Event.write, Event.spelled, AttributeSelector.spelled, List.append_assoc, List.append_assoc]
    exact after hw (by decide) (fun _ => rfl) rfl
  | pseudoClass name =>
    have hcolon := gives_colon (head?_writeName_ne_colon text (toList_ne_nil hr))
    exact (lossy_name hw).after hcolon (Nat.zero_le _)
  | pseudoElement name =>
    have hcolons : ∀ {text}, Gives [':', ':'] [.doubleColon] text := gives_pair (by decide) rfl
    exact (lossy_name hw).after hcolons (Nat.zero_le _)

theorem lossy_joint (h : Grammar.Joint used event) (hl : Lossy text) :
    Lossy (event.write ++ text) := by
  have hsign : ∀ {c : Char}, isSymbol c = true → Token.ofPair c ' ' = none →
      (Token.ofSymbol c).wideCount = 0 → Lossy ([c, ' '] ++ text) := by
    intro c hc hp hz
    have hsymbol : Gives [c] [Token.ofSymbol c] ([' '] ++ text) :=
      gives_symbol hc (by rintro d ⟨⟩; exact hp)
    apply hl.afterBlank.after hsymbol
    rw [tokensWide_cons, hz]
    exact Nat.zero_le _
  cases h with
  | blank => exact hl.afterBlank
  | sign hs _ _ =>
    cases hs with
    | comma => exact hsign (by decide) rfl rfl
    | greater => exact Lossy.afterBlank (hsign (by decide) rfl rfl)
    | plus => exact Lossy.afterBlank (hsign (by decide) rfl rfl)
    | tilde => exact Lossy.afterBlank (hsign (by decide) rfl rfl)

theorem lossy_parts (h : Grammar.Parts ts events) (hr : ∀ event ∈ events, event.Regular)
    (ha : Apart text) (hl : (∀ event ∈ events, event.Writable) → Lossy text) :
    Lossy (events.flatMap Event.write ++ text) := by
  induction h with
  | nil => exact hl nofun
  | @cons used event ts events hp hps ih =>
    obtain ⟨hre, hr⟩ := List.forall_mem_cons.mp hr
    rw [List.flatMap_cons, List.append_assoc]
    by_cases hw : event.Writable
    · have hrest := ih hr fun hws => hl (List.forall_mem_cons.mpr ⟨hw, hws⟩)
      exact hrest.after (gives_part hp hre (hw.spelled hre) (apart_parts hps ha))
        event.wideCount_write.ge
    · exact lossy_part hp hre hw

theorem lossy_compound (h : Grammar.Compound ts events) (hr : ∀ event ∈ events, event.Regular)
    (ha : Apart text) (hl : (∀ event ∈ events, event.Writable) → Lossy text) :
    Lossy (events.flatMap Event.write ++ text) := by
  rcases h.shape with ⟨name, us, parts, hps, rfl⟩ | ⟨hps, -⟩
  · obtain ⟨hre, hr⟩ := List.forall_mem_cons.mp hr
    rw [List.flatMap_cons, List.append_assoc]
    by_cases hw : (Event.element name).Writable
    · have hrest := lossy_parts hps hr ha fun hws => hl (List.forall_mem_cons.mpr ⟨hw, hws⟩)
      exact hrest.after (gives_element (hw.spelled hre) (apart_parts hps ha))
        (Event.element name).wideCount_write.ge
    · exact lossy_element hw
  · exact lossy_parts hps hr ha hl

/-- The canonical text loses a character where some name cannot be written. -/
theorem lossy_compounds (h : Grammar.Compounds ts events) (hr : ∀ event ∈ events, event.Regular)
    (hw : ¬∀ event ∈ events, event.Writable) : Lossy (events.flatMap Event.write) := by
  induction h with
  | last hc _ =>
    rw [← List.append_nil (List.flatMap _ _)]
    exact lossy_compound hc hr apart_nil fun hws => absurd hws hw
  | @cons ts events js joint rest more hc hj hrest ih =>
    obtain ⟨hre, -, hr⟩ := (List.forall_mem_append.mp hr).imp_right List.forall_mem_cons.mp
    rw [List.flatMap_append, List.flatMap_cons]
    refine lossy_compound hc hre (apart_joint hj) fun hws => lossy_joint hj (ih hr fun hwm => hw ?_)
    have hwj : joint.Writable := by
      cases hj with
      | blank => trivial
      | sign hs _ _ => cases hs <;> trivial
    exact List.forall_mem_append.mpr ⟨hws, List.forall_mem_cons.mpr ⟨hwj, hwm⟩⟩

end Lossy

namespace Grammar

theorem Part.regular (h : Part ts event) (hp : ∀ token ∈ ts, token.Proper) : event.Regular := by
  cases h with
  | id ht => cases ht <;> exact hp _ (List.mem_cons_of_mem _ List.mem_cons_self)
  | className name => exact hp _ (List.mem_cons_of_mem _ List.mem_cons_self)
  | test ht =>
    cases ht with
    | @present name g h _ _ =>
      have hname : (Token.ident name).Proper := hp _ (by simp)
      exact ⟨hname, rfl, ⟨nofun, fun ho => absurd rfl ho⟩⟩
    | @compare name op token value g h i j _ _ _ _ _ =>
      have hname : (Token.ident name).Proper := hp _ (by simp)
      have hop : (Token.operator op).Proper := hp _ (by simp)
      exact ⟨hname, rfl, ⟨fun _ => hop, fun _ => rfl⟩⟩
  | pseudoClass name => exact hp _ (List.mem_cons_of_mem _ List.mem_cons_self)
  | pseudoElement name => exact hp _ (List.mem_cons_of_mem _ List.mem_cons_self)

theorem Parts.regular (h : Parts ts events) (hp : ∀ token ∈ ts, token.Proper) :
    ∀ event ∈ events, event.Regular := by
  induction h with
  | nil => exact nofun
  | cons hpart _ ih =>
    obtain ⟨hused, hrest⟩ := List.forall_mem_append.mp hp
    exact List.forall_mem_cons.mpr ⟨hpart.regular hused, ih hrest⟩

theorem Compound.regular (h : Compound ts events) (hp : ∀ token ∈ ts, token.Proper) :
    ∀ event ∈ events, event.Regular := by
  cases h with
  | typed hps =>
    obtain ⟨hname, hrest⟩ := List.forall_mem_cons.mp hp
    exact List.forall_mem_cons.mpr ⟨hname, hps.regular hrest⟩
  | star hps =>
    have hstar : (Event.element "*").Regular := show "*" ≠ "" by decide
    exact List.forall_mem_cons.mpr ⟨hstar, hps.regular (List.forall_mem_cons.mp hp).2⟩
  | untyped hps => exact hps.regular hp

theorem Joint.regular (h : Joint ts event) : event.Regular := by
  cases h with
  | blank => exact nofun
  | sign hs _ _ =>
    cases hs with
    | comma => trivial
    | _ => exact nofun

theorem Compounds.regular (h : Compounds ts events) (hp : ∀ token ∈ ts, token.Proper) :
    ∀ event ∈ events, event.Regular := by
  induction h with
  | last hc _ => exact hc.regular (List.forall_mem_append.mp hp).1
  | cons hc hj _ ih =>
    obtain ⟨hfront, hback⟩ := List.forall_mem_append.mp hp
    have hrest := (List.forall_mem_append.mp hback).2
    exact List.forall_mem_append.mpr
      ⟨hc.regular hfront, List.forall_mem_cons.mpr ⟨hj.regular, ih hrest⟩⟩

theorem Whole.regular (h : Whole ts events) (hp : ∀ token ∈ ts, token.Proper) :
    ∀ event ∈ events, event.Regular := by
  obtain ⟨_, hc⟩ := h
  exact hc.regular (List.forall_mem_append.mp hp).2

end Grammar

section Reparse

theorem parse_eq_ok_iff {text : String} {list : SelectorList} :
    SelectorList.parse text = .ok list ↔ ∃ ts events, lexemes text.toList = some ts ∧
      Grammar.Whole ts events ∧ SelectorList.ofEvents events = list := by
  have hread : ∀ {placed : List PlacedToken}, tokens text.toList = .ok placed →
      lexemes text.toList = some (placed.map PlacedToken.token) := by
    intro placed ht
    rw [lexemes, ht]
    rfl
  rw [SelectorList.parse]
  cases ht : tokens text.toList with
  | error fault =>
    have hnone : lexemes text.toList = none := by
      rw [lexemes, ht]
      rfl
    rw [hnone]
    constructor
    · rintro ⟨⟩
    · rintro ⟨_, _, ⟨⟩, _⟩
  | ok placed =>
    have hl := hread ht
    have hiff : ∀ events, readList (placed.map PlacedToken.token) = .ok events ↔
        Grammar.Whole (placed.map PlacedToken.token) events :=
      fun _ => Grammar.readList_iff (spaced_of_lexemes hl)
    dsimp only
    rw [hl]
    cases hr : readList (placed.map PlacedToken.token) with
    | error stuck =>
      constructor
      · rintro ⟨⟩
      · rintro ⟨ts, events, ⟨⟩, hw, -⟩
        cases hr.symm.trans ((hiff events).mpr hw)
    | ok events =>
      constructor
      · rintro ⟨⟩
        exact ⟨_, events, rfl, (hiff events).mp hr, rfl⟩
      · rintro ⟨ts, others, ⟨⟩, hw, rfl⟩
        cases hr.symm.trans ((hiff others).mpr hw)
        rfl

theorem regular_of_parse {text : String} {list : SelectorList}
    (h : SelectorList.parse text = .ok list) : list.Regular := by
  obtain ⟨ts, events, hl, hw, rfl⟩ := parse_eq_ok_iff.mp h
  exact SelectorList.regular_ofEvents (hw.regular (proper_of_lexemes hl))

theorem parse_spelled {list : SelectorList} (h : list.Regular) {spell : String → List Char}
    (hs : ∀ event ∈ list.events, event.Spelled spell) :
    SelectorList.parse (.ofList (list.events.flatMap (Event.spelled spell))) = .ok list := by
  have hc := Grammar.compounds_of_list h
  have hgives := gives_compounds hc h.regular_events hs
  refine parse_eq_ok_iff.mpr
    ⟨list.events.flatMap Event.tokens, list.events, ?_, .intro .absent hc, list.ofEvents_events h⟩
  rw [Gives, List.append_nil, lexemes_nil] at hgives
  simpa using hgives

theorem parse_text {list : SelectorList} (h : list.Regular) (hw : list.Writable) :
    SelectorList.parse list.text = .ok list := by
  rw [SelectorList.text, list.write_eq h]
  refine parse_spelled h fun event he => ?_
  exact (SelectorList.writable_iff.mp hw event he).spelled (h.regular_events event he)

def SelectorList.any : SelectorList := ⟨[⟨[.any], nofun⟩]⟩

theorem parse_text_any : SelectorList.parse SelectorList.any.text = .ok .any := by
  refine parse_text ⟨nofun, List.forall_mem_singleton.mpr ⟨?_, ?_, nofun⟩⟩ ?_
  · exact List.forall_mem_singleton.mpr .any
  · rintro step ⟨⟩
    rfl
  · refine List.forall_mem_singleton.mpr (List.forall_mem_singleton.mpr ?_)
    exact ⟨nofun, nofun, nofun, nofun, nofun, nofun⟩

/-- Reading the canonical text gives the list back only if every name in it can be written. -/
theorem writable_of_parse_text {list : SelectorList} (h : SelectorList.parse list.text = .ok list) :
    list.Writable := by
  have hr := regular_of_parse h
  obtain ⟨ts, events, hl, hw, he⟩ := parse_eq_ok_iff.mp h
  rw [SelectorList.text, String.toList_ofList, list.write_eq hr] at hl
  have hwide := wide_le_of_whole hw
  rw [he, ← wideCount_flatMap_write] at hwide
  by_contra hn
  rw [SelectorList.writable_iff] at hn
  have := lossy_compounds (Grammar.compounds_of_list hr) hr.regular_events hn ts hl
  omega

/-- Reading the canonical text gives a list back exactly if selector text can say the list and every
name in it can be written. -/
theorem parse_text_iff (list : SelectorList) :
    SelectorList.parse list.text = .ok list ↔ list.Regular ∧ list.Writable :=
  ⟨fun h => ⟨regular_of_parse h, writable_of_parse_text h⟩, fun h => parse_text h.1 h.2⟩

/-- A list that is read from a text is read again from its canonical text exactly if every name in
it can be written. -/
theorem parse_text_of_parse_iff {text : String} {list : SelectorList}
    (h : SelectorList.parse text = .ok list) :
    SelectorList.parse list.text = .ok list ↔ list.Writable :=
  ⟨writable_of_parse_text, fun hw => parse_text (regular_of_parse h) hw⟩

/-- An escaped no-break space is read as a class, but the canonical text leaves the escape out. -/
theorem parse_text_of_escaped_blank :
    let list : SelectorList := ⟨[⟨[Step.any.withClass "\u00a0"], nofun⟩]⟩
    SelectorList.parse ".\\\u00a0" = .ok list ∧ SelectorList.parse list.text ≠ .ok list := by
  intro list
  have hname : lexemes ['\\', '\u00a0'] = some [.ident "\u00a0"] := by
    have hr : Token.read '\\' ['\u00a0'] = .ok ⟨.ident "\u00a0", 3, []⟩ := rfl
    rw [lexemes_of_read hr, lexemes_nil]
    rfl
  have hdot : Gives ['.'] [.dot] ['\\', '\u00a0'] := gives_symbol (by decide) fun _ _ => rfl
  have hl : lexemes ".\\\u00a0".toList = some [.dot, .ident "\u00a0"] := by
    apply hdot.trans
    rw [hname]
    rfl
  have hw : Grammar.Whole [.dot, .ident "\u00a0"] [.className "\u00a0"] :=
    .intro .absent (.last (.untyped (.cons (.className _) .nil)) .absent)
  have h : SelectorList.parse ".\\\u00a0" = .ok list := parse_eq_ok_iff.mpr ⟨_, _, hl, hw, rfl⟩
  refine ⟨h, fun hp => ?_⟩
  have hwritable := (parse_text_of_parse_iff h).mp hp _ List.mem_cons_self _ List.mem_cons_self
  exact absurd (hwritable.classes "\u00a0" List.mem_cons_self) (by decide)

end Reparse

end TreeQuery
