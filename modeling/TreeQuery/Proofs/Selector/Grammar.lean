import TreeQuery.Proofs.Selector.Lexemes
import TreeQuery.Selector.Parse

/-! The grammar of selector lists over tokens, and that reading decides it.
Each relation pairs tokens with the events that they stand for. Blank space may be left out around
signs, around commas, inside brackets and at both ends; elsewhere it is a combinator. -/
namespace TreeQuery

namespace Grammar

/-- Blank space that may be left out. -/
inductive Gap : List Token → Prop where
  | absent : Gap []
  | present : Gap [.blank]

inductive IdToken : Token → String → Prop where
  | ident (name : String) : IdToken (.ident name) name
  | numeral (name : String) : IdToken (.numeral name) name

inductive ValueToken : Token → String → Prop where
  | ident (value : String) : ValueToken (.ident value) value
  | numeral (value : String) : ValueToken (.numeral value) value
  | quoted (value : String) : ValueToken (.quoted value) value

/-- An attribute selector after its opening bracket. -/
inductive Test : List Token → AttributeSelector → Prop where
  | present {name g h} : Gap g → Gap h →
      Test (g ++ .ident name :: (h ++ [.rightBracket])) (.present name)
  | compare {name op token value g h i j} : Gap g → Gap h → Gap i → Gap j →
      ValueToken token value →
      Test (g ++ .ident name :: (h ++ .operator op :: (i ++ token :: (j ++ [.rightBracket]))))
        (.compare name op value)

inductive Part : List Token → Event → Prop where
  | id {token name} : IdToken token name → Part [.hash, token] (.id name)
  | className (name : String) : Part [.dot, .ident name] (.className name)
  | test {ts test} : Test ts test → Part (.leftBracket :: ts) (.test test)
  | pseudoClass (name : String) : Part [.colon, .ident name] (.pseudoClass name)
  | pseudoElement (name : String) : Part [.doubleColon, .ident name] (.pseudoElement name)

inductive Parts : List Token → List Event → Prop where
  | nil : Parts [] []
  | cons {used event ts events} : Part used event → Parts ts events →
      Parts (used ++ ts) (event :: events)

inductive Compound : List Token → List Event → Prop where
  | typed {name ts events} : Parts ts events → Compound (.ident name :: ts) (.element name :: events)
  | star {ts events} : Parts ts events → Compound (.star :: ts) (.element "*" :: events)
  | untyped {ts event events} : Parts ts (event :: events) → Compound ts (event :: events)

inductive Sign : Token → Event → Prop where
  | comma : Sign .comma .nextSelector
  | greater : Sign .greater (.combinator .child)
  | plus : Sign .plus (.combinator .nextSibling)
  | tilde : Sign .tilde (.combinator .subsequentSibling)

inductive Joint : List Token → Event → Prop where
  | blank : Joint [.blank] (.combinator .descendant)
  | sign {token event g h} : Sign token event → Gap g → Gap h → Joint (g ++ token :: h) event

inductive Compounds : List Token → List Event → Prop where
  | last {ts events g} : Compound ts events → Gap g → Compounds (ts ++ g) events
  | cons {ts events js joint rest more} : Compound ts events → Joint js joint →
      Compounds rest more → Compounds (ts ++ (js ++ rest)) (events ++ joint :: more)

/-- A whole selector list. -/
inductive Whole : List Token → List Event → Prop where
  | intro {g ts events} : Gap g → Compounds ts events → Whole (g ++ ts) events

variable {left after ts used gap next : List Token} {events : List Event} {event : Event}
  {name value : String} {test : AttributeSelector}

theorem skipBlank_of_head (h : left.head? ≠ some .blank) : skipBlank left = left := by
  unfold skipBlank
  split
  · exact absurd rfl h
  · rfl

theorem skipBlank_gap (hg : Gap gap) (h : left.head? ≠ some .blank) :
    skipBlank (gap ++ left) = left := by
  cases hg with
  | absent => exact skipBlank_of_head h
  | present => exact (skipBlank.eq_1 left).trans (skipBlank_of_head h)

theorem head?_skipBlank (left : List Token) : (skipBlank left).head? ≠ some .blank := by
  fun_induction skipBlank left with
  | case1 left ih => exact ih
  | case2 left hb =>
    intro h
    obtain ⟨rest, rfl⟩ := List.head?_eq_some_iff.mp h
    exact hb rest rfl

theorem exists_gap (hs : Spaced left) : ∃ gap, Gap gap ∧ left = gap ++ skipBlank left := by
  cases left with
  | nil => exact ⟨[], .absent, rfl⟩
  | cons token left =>
    by_cases hb : token = .blank
    · subst hb
      have hh : left.head? ≠ some .blank := fun hl =>
        (List.isChain_cons.mp hs).1 .blank hl rfl rfl
      exact ⟨[.blank], .present, by rw [skipBlank, skipBlank_of_head hh]; rfl⟩
    · have hh : (token :: left).head? ≠ some .blank := fun hl => hb (Option.some.inj hl)
      exact ⟨[], .absent, by rw [skipBlank_of_head hh]; rfl⟩

theorem readIdent_iff {fault : SyntaxFault} :
    readIdent fault left = .ok (name, after) ↔ left = .ident name :: after := by
  fun_cases readIdent fault left <;> simp_all

theorem readId_iff :
    readId left = .ok (name, after) ↔ ∃ token, left = token :: after ∧ IdToken token name := by
  constructor
  · intro h
    revert h
    fun_cases readId left <;> rintro ⟨⟩
    · exact ⟨_, rfl, .ident name⟩
    · exact ⟨_, rfl, .numeral name⟩
  · rintro ⟨token, rfl, h⟩
    cases h <;> rfl

theorem readValue_iff :
    readValue left = .ok (value, after) ↔
      ∃ token, left = token :: after ∧ ValueToken token value := by
  constructor
  · intro h
    revert h
    fun_cases readValue left <;> rintro ⟨⟩
    · exact ⟨_, rfl, .ident value⟩
    · exact ⟨_, rfl, .numeral value⟩
    · exact ⟨_, rfl, .quoted value⟩
  · rintro ⟨token, rfl, h⟩
    cases h <;> rfl

theorem readAttributeName_iff : readAttributeName left = .ok (name, after) ↔
    left = .ident name :: after ∧ after.head? ≠ some .pipe := by
  constructor
  · intro h
    revert h
    fun_cases readAttributeName left with
    | case1 => exact nofun
    | case2 => exact nofun
    | case3 => exact nofun
    | case4 left _ _ hp =>
      intro h
      rw [readIdent_iff.mp h] at hp
      refine ⟨readIdent_iff.mp h, fun hh => ?_⟩
      obtain ⟨rest, rfl⟩ := List.head?_eq_some_iff.mp hh
      exact hp name rest rfl
  · rintro ⟨rfl, hp⟩
    unfold readAttributeName
    split
    · rename_i he; cases he
    · rename_i he; cases he
    · rename_i he; cases he; exact absurd rfl hp
    · exact readIdent_iff.mpr rfl

theorem readRightBracket_iff {result : AttributeSelector} :
    readRightBracket test left = .ok (result, after) ↔
      left = .rightBracket :: after ∧ test = result := by
  fun_cases readRightBracket test left <;> simp_all [and_comm]

theorem exists_test (hs : Spaced left) (h : readTest left = .ok (test, after)) :
    ∃ used, left = used ++ after ∧ Test used test := by
  obtain ⟨g, hg, hl⟩ := exists_gap hs
  rw [readTest] at h
  split at h
  · cases h
  rename_i name rest hn
  rw [(readAttributeName_iff.mp hn).1] at hl
  subst hl
  have hrest := hs.right.tail
  obtain ⟨i, hi, hl⟩ := exists_gap hrest
  revert h
  generalize hk : skipBlank rest = k at hl
  subst hl
  fun_cases readComparison name k with
  | case1 left =>
    rintro ⟨⟩
    exact ⟨_, by simp, .present hg hi⟩
  | case2 op left stuck => exact nofun
  | case3 op left value rest hv =>
    intro h
    have hleft := hrest.right.tail
    obtain ⟨j, hj, hl⟩ := exists_gap hleft
    obtain ⟨token, ht, hvalue⟩ := readValue_iff.mp hv
    rw [ht] at hl
    subst hl
    obtain ⟨m, hm, hl⟩ := exists_gap hleft.right.tail
    obtain ⟨hb, rfl⟩ := readRightBracket_iff.mp h
    rw [hb] at hl
    subst hl
    exact ⟨_, by simp, .compare hg hi hj hm hvalue⟩
  | case4 => exact nofun
  | case5 => exact nofun

theorem ValueToken.head?_ne {token : Token} (h : ValueToken token value) :
    (token :: left).head? ≠ some .blank := by
  cases h <;> exact nofun

theorem Gap.head?_ne_pipe {token : Token} (hg : Gap gap) (ht : token ≠ .pipe) :
    (gap ++ token :: left).head? ≠ some .pipe := by
  cases hg with
  | absent => exact fun h => ht (Option.some.inj h)
  | present => exact nofun

theorem readTest_of_name {token : Token} {h : List Token} (hg : Gap gap) (hh : Gap h)
    (hb : token ≠ .blank) (hp : token ≠ .pipe) :
    readTest (gap ++ .ident name :: (h ++ token :: left)) = readComparison name (token :: left) := by
  have hname : readAttributeName (.ident name :: (h ++ token :: left)) =
      .ok (name, h ++ token :: left) :=
    readAttributeName_iff.mpr ⟨rfl, hh.head?_ne_pipe hp⟩
  have hrest : skipBlank (h ++ token :: left) = token :: left :=
    skipBlank_gap hh fun he => hb (Option.some.inj he)
  rw [readTest, skipBlank_gap hg (by exact nofun), hname]
  dsimp only
  rw [hrest]

theorem readTest_of_test (h : Test used test) : readTest (used ++ after) = .ok (test, after) := by
  cases h with
  | present hg hh =>
    simp only [List.append_assoc, List.cons_append, List.nil_append]
    exact readTest_of_name hg hh nofun nofun
  | @compare name op token value g h i j hg hh hi hj hv =>
    have hvalue : readValue (token :: (j ++ .rightBracket :: after)) =
        .ok (value, j ++ .rightBracket :: after) := readValue_iff.mpr ⟨token, rfl, hv⟩
    have hend : skipBlank (j ++ .rightBracket :: after) = .rightBracket :: after :=
      skipBlank_gap hj nofun
    have hcompare : readComparison name
        (.operator op :: (i ++ token :: (j ++ .rightBracket :: after))) =
        .ok (.compare name op value, after) := by
      rw [readComparison, skipBlank_gap hi hv.head?_ne, hvalue]
      dsimp only
      rw [hend]
      rfl
    simp only [List.append_assoc, List.cons_append, List.nil_append]
    rw [← hcompare]
    exact readTest_of_name hg hh nofun nofun

theorem exists_part (hs : Spaced left) (h : readPart left = .ok (some (event, after))) :
    ∃ used, left = used ++ after ∧ Part used event := by
  revert h
  fun_cases readPart left with
  | case1 left =>
    intro h
    obtain ⟨name, hr, rfl⟩ := asEvent_eq_ok_some h
    obtain ⟨token, rfl, ht⟩ := readId_iff.mp hr
    exact ⟨_, rfl, .id ht⟩
  | case2 left =>
    intro h
    obtain ⟨name, hr, rfl⟩ := asEvent_eq_ok_some h
    cases readIdent_iff.mp hr
    exact ⟨_, rfl, .className name⟩
  | case3 left =>
    intro h
    obtain ⟨test, hr, rfl⟩ := asEvent_eq_ok_some h
    obtain ⟨used, rfl, ht⟩ := exists_test hs.tail hr
    exact ⟨_, rfl, .test ht⟩
  | case4 left =>
    intro h
    obtain ⟨name, hr, rfl⟩ := asEvent_eq_ok_some h
    cases readIdent_iff.mp hr
    exact ⟨_, rfl, .pseudoClass name⟩
  | case5 left =>
    intro h
    obtain ⟨name, hr, rfl⟩ := asEvent_eq_ok_some h
    cases readIdent_iff.mp hr
    exact ⟨_, rfl, .pseudoElement name⟩
  | case6 => exact nofun

theorem readPart_of_part (h : Part used event) :
    readPart (used ++ after) = .ok (some (event, after)) := by
  cases h with
  | id ht => cases ht <;> rfl
  | className name => rfl
  | test ht =>
    rw [List.cons_append, readPart, readTest_of_test ht]
    rfl
  | pseudoClass name => rfl
  | pseudoElement name => rfl

theorem exists_parts (hs : Spaced left) (h : readParts left = .ok (events, after)) :
    ∃ used, left = used ++ after ∧ Parts used events := by
  fun_induction readParts left generalizing events after with
  | case1 => cases h
  | case2 =>
    cases h
    exact ⟨[], rfl, .nil⟩
  | case3 left event rest hp ih =>
    obtain ⟨⟨more, out⟩, hr, he⟩ := map_eq_ok_iff.mp h
    cases he
    obtain ⟨front, rfl, hpart⟩ := exists_part hs hp
    obtain ⟨used, rfl, hparts⟩ := ih hs.right hr
    exact ⟨front ++ used, (List.append_assoc ..).symm, .cons hpart hparts⟩

theorem readParts_eq (left : List Token) : readParts left = match readPart left with
    | .error stuck => .error stuck
    | .ok none => .ok ([], left)
    | .ok (some (event, rest)) =>
      (readParts rest).map fun (events, left) => (event :: events, left) := by
  rw [readParts]
  split <;> simp_all

theorem readParts_of_parts (h : Parts used events) (ha : readPart after = .ok none) :
    readParts (used ++ after) = .ok (events, after) := by
  induction h with
  | nil => rw [List.nil_append, readParts_eq, ha]
  | @cons used event ts events hpart _ ih =>
    have hread : readPart (used ++ (ts ++ after)) = .ok (some (event, ts ++ after)) :=
      readPart_of_part hpart
    rw [List.append_assoc, readParts_eq, hread]
    dsimp only
    rw [ih]
    rfl

def startsPart : Token → Bool
  | .hash | .dot | .leftBracket | .colon | .doubleColon => true
  | _ => false

def startsCompound : Token → Bool
  | .ident _ | .star => true
  | token => startsPart token

def closesCompound : Token → Bool
  | .ident _ | .numeral _ | .star | .rightBracket => true
  | _ => false

def endsCompound : Token → Bool
  | .blank | .comma | .greater | .plus | .tilde => true
  | _ => false

/-- What can stand behind a compound: nothing, or what ends it. -/
def Ended (left : List Token) : Prop := ∀ token ∈ left.head?, endsCompound token = true

/-- What can stand behind a joint: something other than a joint. -/
def Started (left : List Token) : Prop :=
  ∃ token rest, left = token :: rest ∧ endsCompound token = false

theorem readPart_of_ended (h : Ended left) : readPart left = .ok none := by
  cases left with
  | nil => rfl
  | cons token left =>
    have ht := h token rfl
    cases token <;> first | rfl | exact absurd ht nofun

theorem readType_of_ended (h : Ended left) : readType left = ([], left) := by
  cases left with
  | nil => rfl
  | cons token left =>
    have ht := h token rfl
    cases token <;> first | rfl | exact absurd ht nofun

theorem Part.starts (h : Part used event) :
    ∃ token rest, used = token :: rest ∧ startsPart token = true := by
  cases h <;> exact ⟨_, _, rfl, rfl⟩

theorem Parts.head?_ne_pipe (h : Parts used events) (ha : Ended after) :
    (used ++ after).head? ≠ some .pipe := by
  cases h with
  | nil => exact fun hp => absurd (ha .pipe hp) nofun
  | cons hpart _ =>
    obtain ⟨token, rest, rfl, ht⟩ := hpart.starts
    intro hp
    cases hp
    exact absurd ht nofun

theorem Parts.readType (h : Parts used (event :: events)) :
    readType (used ++ after) = ([], used ++ after) := by
  cases h with
  | cons hpart _ =>
    obtain ⟨token, rest, rfl, ht⟩ := hpart.starts
    cases token <;> first | rfl | exact absurd ht nofun

theorem Compound.shape (h : Compound used events) : (∃ name ts parts, Parts ts parts ∧
    events = .element name :: parts) ∨ (Parts used events ∧ events ≠ []) := by
  cases h with
  | typed hps => exact .inl ⟨_, _, _, hps, rfl⟩
  | star hps => exact .inl ⟨_, _, _, hps, rfl⟩
  | untyped hps => exact .inr ⟨hps, List.cons_ne_nil _ _⟩

theorem Compound.starts (h : Compound used events) : Started used := by
  cases h with
  | typed _ => exact ⟨_, _, rfl, rfl⟩
  | star _ => exact ⟨_, _, rfl, rfl⟩
  | untyped h =>
    cases h with
    | cons hpart _ =>
      obtain ⟨token, rest, rfl, ht⟩ := hpart.starts
      refine ⟨token, rest ++ _, rfl, ?_⟩
      cases token <;> first | rfl | exact absurd ht nofun

theorem Compound.first (h : Compound used events) :
    ∃ token ∈ used.head?, startsCompound token = true := by
  cases h with
  | typed _ => exact ⟨_, rfl, rfl⟩
  | star _ => exact ⟨_, rfl, rfl⟩
  | untyped h =>
    cases h with
    | cons hpart _ =>
      obtain ⟨token, rest, rfl, ht⟩ := hpart.starts
      refine ⟨token, rfl, ?_⟩
      cases token <;> first | rfl | exact absurd ht nofun

theorem Test.ends (h : Test used test) : ∃ front, used = front ++ [.rightBracket] := by
  cases h with
  | @present name g h _ _ => exact ⟨g ++ .ident name :: h, by simp⟩
  | @compare name op token value g h i j _ _ _ _ _ =>
    exact ⟨g ++ .ident name :: (h ++ .operator op :: (i ++ token :: j)), by simp⟩

theorem Part.ends (h : Part used event) :
    ∃ token ∈ used.getLast?, closesCompound token = true := by
  cases h with
  | id ht => cases ht <;> exact ⟨_, rfl, rfl⟩
  | className name => exact ⟨_, rfl, rfl⟩
  | test ht =>
    obtain ⟨front, rfl⟩ := ht.ends
    refine ⟨.rightBracket, ?_, rfl⟩
    rw [← List.cons_append]
    exact List.getLast?_concat
  | pseudoClass name => exact ⟨_, rfl, rfl⟩
  | pseudoElement name => exact ⟨_, rfl, rfl⟩

theorem Parts.ends (h : Parts used events) :
    ∀ token ∈ used.getLast?, closesCompound token = true := by
  induction h with
  | nil => exact nofun
  | cons hpart _ ih =>
    obtain ⟨last, hl, hc⟩ := hpart.ends
    intro token ht
    rw [List.getLast?_append, Option.mem_def, Option.or_eq_some_iff] at ht
    rcases ht with ht | ⟨-, ht⟩
    · exact ih token ht
    · cases hl.symm.trans ht
      exact hc

theorem Compound.ends (h : Compound used events) :
    ∃ token ∈ used.getLast?, closesCompound token = true := by
  have typed : ∀ {token ts parts}, closesCompound token = true → Parts ts parts →
      ∃ last ∈ (token :: ts).getLast?, closesCompound last = true := by
    intro token ts parts ht hps
    rw [List.getLast?_cons]
    refine ⟨_, rfl, ?_⟩
    cases hl : ts.getLast? with
    | none => exact ht
    | some last => exact hps.ends last hl
  cases h with
  | typed hps => exact typed rfl hps
  | star hps => exact typed rfl hps
  | untyped hps =>
    obtain ⟨last, hl⟩ : ∃ last, used.getLast? = some last := by
      cases hps with
      | cons hpart _ =>
        obtain ⟨last, hl, -⟩ := hpart.ends
        rw [List.getLast?_append, Option.mem_def.mp hl]
        cases List.getLast? _ <;> exact ⟨_, rfl⟩
    exact ⟨last, hl, hps.ends last hl⟩

theorem parts_of_readCompound {type : List Event} {rest : List Token}
    (hr : TreeQuery.readType left = (type, rest)) (h : readCompound left = .ok (events, after)) :
    ∃ parts, readParts rest = .ok (parts, after) ∧ events = type ++ parts ∧ events ≠ [] := by
  rw [readCompound] at h
  rw [hr] at h
  dsimp only at h
  split at h
  · cases h
  split at h
  · cases h
  rename_i parts out hp
  split at h
  · cases h
  split at h
  · cases h
  rename_i hne
  cases h
  refine ⟨parts, hp, rfl, ?_⟩
  intro he
  exact hne (by rw [he]; rfl)

theorem exists_compound (hs : Spaced left) (h : readCompound left = .ok (events, after)) :
    ∃ used, left = used ++ after ∧ Compound used events := by
  have hparts : ∀ {type rest}, TreeQuery.readType left = (type, rest) → Spaced rest →
      ∃ used parts, rest = used ++ after ∧ Parts used parts ∧ events = type ++ parts ∧
        events ≠ [] := by
    intro type rest hr hs
    obtain ⟨parts, hp, he, hne⟩ := parts_of_readCompound hr h
    obtain ⟨used, hl, hps⟩ := exists_parts hs hp
    exact ⟨used, parts, hl, hps, he, hne⟩
  revert hparts
  fun_cases TreeQuery.readType left with
  | case1 name left =>
    intro hparts
    obtain ⟨used, parts, rfl, hps, rfl, -⟩ := hparts rfl hs.tail
    exact ⟨_, rfl, .typed hps⟩
  | case2 left =>
    intro hparts
    obtain ⟨used, parts, rfl, hps, rfl, -⟩ := hparts rfl hs.tail
    exact ⟨_, rfl, .star hps⟩
  | case3 =>
    intro hparts
    obtain ⟨used, parts, rfl, hps, rfl, hne⟩ := hparts rfl hs
    cases events with
    | nil => exact absurd rfl hne
    | cons event events => exact ⟨used, rfl, .untyped hps⟩

/-- A type and parts are read as a compound unless a namespace or another type goes on from them. -/
theorem readCompound_of_parts {type parts : List Event} {ts : List Token}
    (hr : TreeQuery.readType left = (type, ts ++ after)) (hps : Parts ts parts)
    (ha : readPart after = .ok none) :
    readCompound left =
      if (ts ++ after).head? = some .pipe then .error (.usesNamespace (ts ++ after))
      else if !(TreeQuery.readType after).1.isEmpty then .error (.malformed .typeNotFirst after)
      else if (type ++ parts).isEmpty then .error (.malformed .expectedSelector after)
      else .ok (type ++ parts, after) := by
  rw [readCompound]
  rw [hr]
  dsimp only
  rw [readParts_of_parts hps ha]

theorem readCompound_of_compound (h : Compound used events) (ha : Ended after) :
    readCompound (used ++ after) = .ok (events, after) := by
  have main : ∀ {type ts parts}, readType (used ++ after) = (type, ts ++ after) →
      Parts ts parts → type ++ parts ≠ [] →
      readCompound (used ++ after) = .ok (type ++ parts, after) := by
    intro type ts parts hr hparts hne
    rw [readCompound_of_parts hr hparts (readPart_of_ended ha), if_neg (hparts.head?_ne_pipe ha),
      readType_of_ended ha, if_neg (by exact nofun), if_neg]
    exact fun he => hne (List.isEmpty_iff.mp he)
  cases h with
  | typed hparts => exact main rfl hparts nofun
  | star hparts => exact main rfl hparts nofun
  | untyped hparts => exact main hparts.readType hparts nofun

theorem Gap.ended (hg : Gap gap) : Ended gap := by
  cases hg with
  | absent => exact nofun
  | present => rintro token ⟨⟩; rfl

theorem Joint.ended (h : Joint used event) : Ended (used ++ left) := by
  cases h with
  | blank => rintro token ⟨⟩; rfl
  | sign hsign hg _ =>
    cases hg with
    | absent => cases hsign <;> rintro token ⟨⟩ <;> rfl
    | present => rintro token ⟨⟩; rfl

theorem gap_of_readJoint (hs : Spaced left) (h : readJoint left = .ok none) : Gap left := by
  obtain ⟨gap, hg, hl⟩ := exists_gap hs
  rw [readJoint] at h
  split at h
  · rename_i hb
    rw [hl, hb, List.append_nil]
    exact hg
  · cases h
  · cases h
  · cases h
  · cases h
  · split at h <;> cases h

theorem exists_joint (hs : Spaced left) (h : readJoint left = .ok (some (event, next))) :
    ∃ used, left = used ++ next ∧ Joint used event := by
  obtain ⟨gap, hg, hl⟩ := exists_gap hs
  have hsign : ∀ {token rest event}, skipBlank left = token :: rest → Sign token event →
      ∃ used, left = used ++ skipBlank rest ∧ Joint used event := by
    intro token rest event hb hsign
    rw [hb] at hl
    rw [hl] at hs
    obtain ⟨behind, hbehind, hr⟩ := exists_gap hs.right.tail
    refine ⟨gap ++ token :: behind, ?_, .sign hsign hg hbehind⟩
    rw [List.append_assoc, List.cons_append, ← hr, hl]
  rw [readJoint] at h
  split at h
  · cases h
  · rename_i hb; cases h; exact hsign hb .comma
  · rename_i hb; cases h; exact hsign hb .greater
  · rename_i hb; cases h; exact hsign hb .plus
  · rename_i hb; cases h; exact hsign hb .tilde
  · split at h
    · rename_i hb
      cases h
      cases hg with
      | absent =>
        obtain ⟨rest, rfl⟩ := List.head?_eq_some_iff.mp hb
        have hlen := congrArg List.length hl
        have hskip := skipBlank_length rest
        rw [skipBlank, List.nil_append, List.length_cons] at hlen
        omega
      | present => exact ⟨[.blank], hl, .blank⟩
    · cases h

theorem readJoint_of_gap (hg : Gap left) : readJoint left = .ok none := by
  cases hg <;> rfl

theorem readJoint_of_sign {token : Token} {h : List Token} (hs : Sign token event) (hg : Gap gap)
    (hh : Gap h) (hb : next.head? ≠ some .blank) :
    readJoint (gap ++ token :: (h ++ next)) = .ok (some (event, next)) := by
  have hne : (token :: (h ++ next)).head? ≠ some .blank := by cases hs <;> exact nofun
  have hskip : skipBlank (gap ++ token :: (h ++ next)) = token :: (h ++ next) :=
    skipBlank_gap hg hne
  have hrest : skipBlank (h ++ next) = next := skipBlank_gap hh hb
  rw [readJoint, hskip]
  cases hs <;> dsimp only <;> rw [hrest]

theorem readJoint_of_joint (h : Joint used event) (hn : Started next) :
    readJoint (used ++ next) = .ok (some (event, next)) := by
  obtain ⟨token, rest, rfl, ht⟩ := hn
  have hb : (token :: rest).head? ≠ some .blank := by
    intro hb
    cases hb
    exact absurd ht nofun
  cases h with
  | blank => cases token <;> first | rfl | exact absurd ht nofun
  | sign hs hg hh =>
    rw [List.append_assoc, List.cons_append]
    exact readJoint_of_sign hs hg hh hb

theorem Compounds.started (h : Compounds used events) : Started used := by
  cases h with
  | last hc _ =>
    obtain ⟨token, rest, rfl, ht⟩ := hc.starts
    exact ⟨token, _, rfl, ht⟩
  | cons hc _ _ =>
    obtain ⟨token, rest, rfl, ht⟩ := hc.starts
    exact ⟨token, _, rfl, ht⟩

theorem compounds_of_readCompounds (hs : Spaced left) (h : readCompounds left = .ok events) :
    Compounds left events := by
  fun_induction readCompounds left generalizing events with
  | case1 => cases h
  | case2 => cases h
  | case3 left parts rest hc hj =>
    cases h
    obtain ⟨used, rfl, hcompound⟩ := exists_compound hs hc
    exact .last hcompound (gap_of_readJoint hs.right hj)
  | case4 left parts rest hc joint next hj ih =>
    obtain ⟨more, hr, rfl⟩ := map_eq_ok_iff.mp h
    obtain ⟨used, rfl, hcompound⟩ := exists_compound hs hc
    obtain ⟨js, rfl, hjoint⟩ := exists_joint hs.right hj
    exact .cons hcompound hjoint (ih hs.right.right hr)

theorem readCompounds_eq (left : List Token) : readCompounds left = match readCompound left with
    | .error stuck => .error stuck
    | .ok (parts, rest) => match readJoint rest with
      | .error stuck => .error stuck
      | .ok none => .ok parts
      | .ok (some (joint, next)) =>
        (readCompounds next).map fun events => parts ++ joint :: events := by
  rw [readCompounds]
  split
  · simp_all
  · rename_i hc
    rw [hc]
    dsimp only
    split <;> simp_all

theorem readCompounds_of_compounds (h : Compounds left events) :
    readCompounds left = .ok events := by
  induction h with
  | @last ts events g hc hg =>
    have hread : readCompound (ts ++ g) = .ok (events, g) := readCompound_of_compound hc hg.ended
    rw [readCompounds_eq, hread]
    dsimp only
    rw [readJoint_of_gap hg]
  | @cons ts events js joint rest more hc hj hrest ih =>
    have hread : readCompound (ts ++ (js ++ rest)) = .ok (events, js ++ rest) :=
      readCompound_of_compound hc hj.ended
    have hjoint : readJoint (js ++ rest) = .ok (some (joint, rest)) :=
      readJoint_of_joint hj hrest.started
    rw [readCompounds_eq, hread]
    dsimp only
    rw [hjoint]
    dsimp only
    rw [ih]
    rfl

/-- Reading a list succeeds exactly on what the grammar derives, with the events derived. -/
theorem readList_iff (hs : Spaced left) : readList left = .ok events ↔ Whole left events := by
  constructor
  · intro h
    obtain ⟨gap, hg, hl⟩ := exists_gap hs
    rw [readList] at h
    split at h
    · cases h
    · rw [hl] at hs ⊢
      exact .intro hg (compounds_of_readCompounds hs.right h)
  · rintro ⟨hg, hc⟩
    obtain ⟨token, rest, rfl, ht⟩ := hc.started
    have hb : (token :: rest).head? ≠ some .blank := by
      intro hb
      cases hb
      exact absurd ht nofun
    rw [readList, skipBlank_gap hg hb]
    exact readCompounds_of_compounds hc

end Grammar

end TreeQuery
