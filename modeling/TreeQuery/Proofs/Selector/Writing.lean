import TreeQuery.Proofs.Selector.Canonical

/-! How the text of a list is cut into tokens.
The text of an event gives the tokens that are meant as long as its names are spelled so that they
are read as names. The canonical text spells a name so unless it starts with a blank character
beyond ASCII, which the printer does not escape. -/
namespace TreeQuery

/-- Before `text`, the text `front` gives the tokens `ts`. -/
def Gives (front : List Char) (ts : List Token) (text : List Char) : Prop :=
  lexemes (front ++ text) = (lexemes text).map (ts ++ ·)

/-- A text that nothing written before it runs on into. -/
def Apart (text : List Char) : Prop :=
  ∀ c ∈ text.head?, c ≠ '\\' ∧ isNameChar c = false ∧ c ≠ '='

/-- A text that does not start with blank space. -/
def Firm (text : List Char) : Prop := ∀ c ∈ text.head?, isBlank c = false

/-- The spelling of a name is read as that name, and starts neither with blank space nor with a colon. -/
structure Spells (spell : String → List Char) (name : String) : Prop where
  gives : ∀ {text}, Stops text → Gives (spell name) [.ident name] text
  first : ∃ c rest, spell name = c :: rest ∧ isBlank c = false ∧ c ≠ ':'

/-- Every name in the event is spelled as that name. -/
def Event.Spelled (spell : String → List Char) : Event → Prop
  | .element name | .id name | .className name | .pseudoClass name | .pseudoElement name =>
    Spells spell name
  | .test wanted => Spells spell wanted.name
  | .combinator _ | .nextSelector => True

/-- No name in the event starts with a blank character that is not escaped. -/
def Event.Writable : Event → Prop
  | .element name | .id name | .className name | .pseudoClass name | .pseudoElement name =>
    startsWide name.toList = false
  | .test wanted => startsWide wanted.name.toList = false
  | .combinator _ | .nextSelector => True

variable {text front back : List Char} {ts us used : List Token} {event : Event}
  {events : List Event} {name : String} {spell : String → List Char}

theorem Apart.stops (h : Apart text) : Stops text := fun c hc => ⟨(h c hc).1, (h c hc).2.1⟩

theorem toList_ne_nil (h : name ≠ "") : name.toList ≠ [] := fun he =>
  h (String.toList_eq_nil_iff.mp he)

section Pieces

theorem Gives.nil : Gives [] [] text := by
  rw [Gives]
  simp

theorem Gives.append (hf : Gives front ts (back ++ text)) (hb : Gives back us text) :
    Gives (front ++ back) (ts ++ us) text := by
  unfold Gives at *
  rw [List.append_assoc, hf, hb, Option.map_map]
  exact congrArg (Option.map · _) (funext fun _ => (List.append_assoc ..).symm)

theorem gives_symbol {c : Char} (hc : isSymbol c = true)
    (hp : ∀ d ∈ text.head?, Token.ofPair c d = none) : Gives [c] [Token.ofSymbol c] text :=
  lexemes_symbol hc hp

theorem gives_pair {c d : Char} {token : Token} (hc : isSymbol c = true)
    (hp : Token.ofPair c d = some token) : Gives [c, d] [token] text :=
  lexemes_pair hc hp

theorem gives_name (hn : name ≠ "") (hw : startsWide name.toList = false) (hs : Stops text) :
    Gives (writeName name.toList) [.ident name] text := by
  have h := lexemes_writeName (toList_ne_nil hn) hw hs
  rwa [String.ofList_toList] at h

theorem spells_writeName (hn : name ≠ "") (hw : startsWide name.toList = false) :
    Spells (fun name => writeName name.toList) name := by
  refine ⟨gives_name hn hw, ?_⟩
  obtain ⟨c, rest, he, -⟩ := writeName_eq_cons (toList_ne_nil hn)
  have hhead : c ∈ (writeName name.toList ++ []).head? := by
    rw [he]
    rfl
  refine ⟨c, rest, he, head?_writeName_not_blank (toList_ne_nil hn) hw c hhead, ?_⟩
  rintro rfl
  exact head?_writeName_ne_colon [] (toList_ne_nil hn) hhead

theorem Event.Writable.spelled (hw : event.Writable) (hr : event.Regular) :
    event.Spelled fun name => writeName name.toList := by
  cases event with
  | test wanted => exact spells_writeName hr.name hw
  | combinator joint => trivial
  | nextSelector => trivial
  | _ => exact spells_writeName hr hw

theorem Spells.head?_ne_colon (hs : Spells spell name) : (spell name ++ text).head? ≠ some ':' := by
  obtain ⟨c, rest, he, -, hc⟩ := hs.first
  rw [he]
  rintro ⟨⟩
  exact hc rfl

theorem Spells.firm (hs : Spells spell name) : Firm (spell name ++ text) := by
  obtain ⟨c, rest, he, hb, -⟩ := hs.first
  rw [he]
  rintro d ⟨⟩
  exact hb

theorem gives_quoted (value : String) :
    Gives (writeQuoted value.toList) [.quoted value] text := by
  have h := lexemes_writeQuoted value.toList text
  rwa [String.ofList_toList] at h

theorem gives_blank (h : Firm text) : Gives [' '] [.blank] text :=
  lexemes_blank_apart (by decide) h

theorem gives_colon (h : text.head? ≠ some ':') : Gives [':'] [.colon] text := by
  apply gives_symbol (by decide)
  intro d hd
  have hne : d ≠ ':' := fun he => h (he ▸ hd)
  unfold Token.ofPair
  split <;> simp_all

theorem gives_star (h : Apart text) : Gives ['*'] [.star] text := by
  apply gives_symbol (by decide)
  intro d hd
  have hne := (h d hd).2.2
  unfold Token.ofPair
  split <;> simp_all

theorem gives_operator {operator : AttributeOperator} (h : operator ≠ .present) :
    Gives operator.symbol.toList [.operator operator] text := by
  cases operator with
  | present => exact absurd rfl h
  | equals => exact gives_symbol (by decide) fun _ _ => rfl
  | _ => exact gives_pair (by decide) rfl

end Pieces

section Events

theorem stops_symbol {operator : AttributeOperator} (h : operator ≠ .present) :
    Stops (operator.symbol.toList ++ text) := by
  cases operator with
  | present => exact absurd rfl h
  | _ => rintro c ⟨⟩; decide

theorem gives_test {test : AttributeSelector} (h : test.Regular) (hs : Spells spell test.name) :
    Gives (test.spelled spell) test.tokens text := by
  have hopen : ∀ {text}, Gives ['['] [.leftBracket] text :=
    gives_symbol (by decide) fun _ _ => rfl
  have hclose : Gives [']'] [.rightBracket] text := gives_symbol (by decide) fun _ _ => rfl
  have hvalue := h.value
  revert hvalue
  unfold AttributeSelector.spelled AttributeSelector.tokens
  cases test.value with
  | none =>
    intro _
    have hstops : Stops ([']'] ++ text) := by rintro c ⟨⟩; decide
    have hname := (hs.gives hstops).append hclose
    simpa using hopen.append hname
  | some value =>
    intro hvalue
    have ho := hvalue.mp rfl
    have hquoted := (gives_operator ho).append ((gives_quoted value).append hclose)
    have hstops : Stops
        ((test.operator.symbol.toList ++ (writeQuoted value.toList ++ [']'])) ++ text) := by
      rw [List.append_assoc]
      exact stops_symbol ho
    have hname := (hs.gives hstops).append hquoted
    simpa using hopen.append hname

theorem gives_element (hs : Spells spell name) (ha : Apart text) :
    Gives ((Event.element name).spelled spell) (Event.element name).tokens text := by
  rw [Event.spelled, Event.tokens]
  by_cases hn : name = "*"
  · rw [if_pos hn, if_pos hn]
    exact gives_star ha
  · rw [if_neg hn, if_neg hn]
    exact hs.gives ha.stops

theorem gives_part (h : Grammar.Part used event) (hr : event.Regular) (hs : event.Spelled spell)
    (ha : Apart text) : Gives (event.spelled spell) event.tokens text := by
  cases h with
  | id _ =>
    have hhash : ∀ {text}, Gives ['#'] [.hash] text := gives_symbol (by decide) fun _ _ => rfl
    exact hhash.append (hs.gives ha.stops)
  | className name =>
    have hdot : ∀ {text}, Gives ['.'] [.dot] text := gives_symbol (by decide) fun _ _ => rfl
    exact hdot.append (hs.gives ha.stops)
  | test _ => exact gives_test hr hs
  | pseudoClass name => exact (gives_colon hs.head?_ne_colon).append (hs.gives ha.stops)
  | pseudoElement name =>
    have hcolons : ∀ {text}, Gives [':', ':'] [.doubleColon] text := gives_pair (by decide) rfl
    exact hcolons.append (hs.gives ha.stops)

theorem gives_joint (h : Grammar.Joint used event) (hf : Firm text) :
    Gives (event.spelled spell) event.tokens text := by
  have hsign : ∀ {c : Char}, isSymbol c = true → Token.ofPair c ' ' = none →
      Gives [' ', c, ' '] [.blank, Token.ofSymbol c, .blank] text := by
    intro c hc hp
    have hfirm : Firm ([c, ' '] ++ text) := by
      rintro d ⟨⟩
      simp only [isSymbol, Bool.and_eq_true, Bool.not_eq_true'] at hc
      exact hc.1.1.1.1
    have hsymbol : Gives [c] [Token.ofSymbol c] ([' '] ++ text) :=
      gives_symbol hc (by rintro d ⟨⟩; exact hp)
    exact (gives_blank hfirm).append (hsymbol.append (gives_blank hf))
  cases h with
  | blank => exact gives_blank hf
  | sign hs _ _ =>
    cases hs with
    | comma =>
      have hcomma : ∀ {text}, Gives [','] [.comma] text := gives_symbol (by decide) fun _ _ => rfl
      exact hcomma.append (gives_blank hf)
    | greater => exact hsign (by decide) rfl
    | plus => exact hsign (by decide) rfl
    | tilde => exact hsign (by decide) rfl

end Events

section Compounds

open Grammar

theorem apart_nil : Apart [] := nofun

theorem apart_part (h : Part used event) : Apart (event.spelled spell ++ text) := by
  cases h <;> rintro c ⟨⟩ <;> decide

theorem apart_parts (h : Parts ts events) (ha : Apart text) :
    Apart (events.flatMap (Event.spelled spell) ++ text) := by
  cases h with
  | nil => exact ha
  | cons hp _ =>
    rw [List.flatMap_cons, List.append_assoc]
    exact apart_part hp

theorem apart_joint (h : Joint used event) : Apart (event.spelled spell ++ text) := by
  cases h with
  | blank => rintro c ⟨⟩; decide
  | sign hs _ _ => cases hs <;> rintro c ⟨⟩ <;> decide

theorem firm_parts (h : Parts ts events) (hne : events ≠ []) :
    Firm (events.flatMap (Event.spelled spell) ++ text) := by
  cases h with
  | nil => exact absurd rfl hne
  | cons hp _ => cases hp <;> rintro c ⟨⟩ <;> decide

theorem firm_element (hs : Spells spell name) :
    Firm ((Event.element name).spelled spell ++ text) := by
  rw [Event.spelled]
  split
  · rintro c ⟨⟩
    decide
  · exact hs.firm

theorem firm_compound (h : Compound ts events) (hs : ∀ event ∈ events, event.Spelled spell) :
    Firm (events.flatMap (Event.spelled spell) ++ text) := by
  rcases h.shape with ⟨name, us, parts, -, rfl⟩ | ⟨hps, hne⟩
  · rw [List.flatMap_cons, List.append_assoc]
    exact firm_element (hs _ List.mem_cons_self)
  · exact firm_parts hps hne

theorem gives_parts (h : Parts ts events) (hr : ∀ event ∈ events, event.Regular)
    (hs : ∀ event ∈ events, event.Spelled spell) (ha : Apart text) :
    Gives (events.flatMap (Event.spelled spell)) (events.flatMap Event.tokens) text := by
  induction h with
  | nil => exact .nil
  | cons hp hps ih =>
    obtain ⟨hre, hr⟩ := List.forall_mem_cons.mp hr
    obtain ⟨hse, hs⟩ := List.forall_mem_cons.mp hs
    exact (gives_part hp hre hse (apart_parts hps ha)).append (ih hr hs)

theorem gives_compound (h : Compound ts events) (hr : ∀ event ∈ events, event.Regular)
    (hs : ∀ event ∈ events, event.Spelled spell) (ha : Apart text) :
    Gives (events.flatMap (Event.spelled spell)) (events.flatMap Event.tokens) text := by
  rcases h.shape with ⟨name, us, parts, hps, rfl⟩ | ⟨hps, -⟩
  · obtain ⟨-, hr⟩ := List.forall_mem_cons.mp hr
    obtain ⟨hse, hs⟩ := List.forall_mem_cons.mp hs
    exact (gives_element hse (apart_parts hps ha)).append (gives_parts hps hr hs ha)
  · exact gives_parts hps hr hs ha

theorem firm_compounds (h : Compounds ts events) (hs : ∀ event ∈ events, event.Spelled spell) :
    Firm (events.flatMap (Event.spelled spell) ++ text) := by
  cases h with
  | last hc _ => exact firm_compound hc hs
  | cons hc _ _ =>
    rw [List.flatMap_append, List.append_assoc]
    exact firm_compound hc (List.forall_mem_append.mp hs).1

/-- The text of events whose names are spelled gives the tokens that are meant. -/
theorem gives_compounds (h : Compounds ts events) (hr : ∀ event ∈ events, event.Regular)
    (hs : ∀ event ∈ events, event.Spelled spell) :
    Gives (events.flatMap (Event.spelled spell)) (events.flatMap Event.tokens) [] := by
  induction h with
  | last hc _ => exact gives_compound hc hr hs apart_nil
  | cons hc hj hrest ih =>
    obtain ⟨hre, hrj, hr⟩ := (List.forall_mem_append.mp hr).imp_right List.forall_mem_cons.mp
    obtain ⟨hse, hsj, hs⟩ := (List.forall_mem_append.mp hs).imp_right List.forall_mem_cons.mp
    rw [List.flatMap_append, List.flatMap_append]
    refine (gives_compound hc hre hse ?_).append ?_
    · rw [List.flatMap_cons, List.append_assoc]
      exact apart_joint hj
    · exact (gives_joint hj (firm_compounds hrest hs)).append (ih hr hs)

end Compounds

end TreeQuery
