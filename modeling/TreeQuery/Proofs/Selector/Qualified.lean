import TreeQuery.Proofs.Selector.Reparse

/-! Selector lists with namespaces, which reading refuses as such.
The grammar is that of selector lists, except that a type and the name of an attribute may be
qualified. Without qualifiers it derives what can be read; at the first qualifier reading stops,
since a bar is taken for nothing else and all that stands before it can be read. -/
namespace TreeQuery

namespace Grammar.Qualified

/-- A namespace, the star or nothing, each before a bar, or no qualifier at all. The flag says
whether there is one. -/
inductive Qualifier : List Token → Bool → Prop where
  | absent : Qualifier [] false
  | bare : Qualifier [.pipe] true
  | named (ns : String) : Qualifier [.ident ns, .pipe] true
  | star : Qualifier [.star, .pipe] true

inductive TypeToken : Token → Prop where
  | ident (name : String) : TypeToken (.ident name)
  | star : TypeToken .star

/-- An attribute selector after its opening bracket; no blank space stands around the bar. -/
inductive Test : List Token → Bool → Prop where
  | present {name g q used h} : Gap g → Qualifier q used → Gap h →
      Test (g ++ (q ++ .ident name :: (h ++ [.rightBracket]))) used
  | compare {name op token value g q used h i j} : Gap g → Qualifier q used → Gap h → Gap i →
      Gap j → ValueToken token value →
      Test (g ++ (q ++ .ident name ::
        (h ++ .operator op :: (i ++ token :: (j ++ [.rightBracket]))))) used

inductive Part : List Token → Bool → Prop where
  | id {token name} : IdToken token name → Part [.hash, token] false
  | className (name : String) : Part [.dot, .ident name] false
  | test {ts used} : Test ts used → Part (.leftBracket :: ts) used
  | pseudoClass (name : String) : Part [.colon, .ident name] false
  | pseudoElement (name : String) : Part [.doubleColon, .ident name] false

inductive Parts : List Token → Bool → Prop where
  | nil : Parts [] false
  | cons {first front ts back} : Part first front → Parts ts back →
      Parts (first ++ ts) (front || back)

inductive Compound : List Token → Bool → Prop where
  | typed {q front token ts back} : Qualifier q front → TypeToken token → Parts ts back →
      Compound (q ++ token :: ts) (front || back)
  | untyped {first front ts back} : Part first front → Parts ts back →
      Compound (first ++ ts) (front || back)

inductive Compounds : List Token → Bool → Prop where
  | last {ts used g} : Compound ts used → Gap g → Compounds (ts ++ g) used
  | cons {ts front js joint rest back} : Compound ts front → Joint js joint →
      Compounds rest back → Compounds (ts ++ (js ++ rest)) (front || back)

inductive Whole : List Token → Bool → Prop where
  | intro {g ts used} : Gap g → Compounds ts used → Whole (g ++ ts) used

variable {ts q : List Token} {used : Bool}

section Plain

theorem Qualifier.eq_nil (h : Qualifier q false) : q = [] := by
  cases h
  rfl

theorem Test.plain (h : Test ts false) : ∃ test, Grammar.Test ts test := by
  cases h with
  | present hg hq hh =>
    cases hq
    exact ⟨_, .present hg hh⟩
  | compare hg hq hh hi hj hv =>
    cases hq
    exact ⟨_, .compare hg hh hi hj hv⟩

theorem Part.plain (h : Part ts false) : ∃ event, Grammar.Part ts event := by
  cases h with
  | id ht => exact ⟨_, .id ht⟩
  | className name => exact ⟨_, .className name⟩
  | test ht =>
    obtain ⟨test, hp⟩ := ht.plain
    exact ⟨_, .test hp⟩
  | pseudoClass name => exact ⟨_, .pseudoClass name⟩
  | pseudoElement name => exact ⟨_, .pseudoElement name⟩

theorem Parts.plain (h : Parts ts used) (hu : used = false) :
    ∃ events, Grammar.Parts ts events := by
  induction h with
  | nil => exact ⟨_, .nil⟩
  | cons hp _ ih =>
    obtain ⟨rfl, hback⟩ := Bool.or_eq_false_iff.mp hu
    obtain ⟨event, hpart⟩ := hp.plain
    obtain ⟨events, hparts⟩ := ih hback
    exact ⟨_, .cons hpart hparts⟩

theorem Compound.plain (h : Compound ts used) (hu : used = false) :
    ∃ events, Grammar.Compound ts events := by
  cases h with
  | typed hq ht hps =>
    obtain ⟨rfl, hback⟩ := Bool.or_eq_false_iff.mp hu
    obtain ⟨events, hparts⟩ := hps.plain hback
    cases hq.eq_nil
    cases ht with
    | ident name => exact ⟨_, .typed hparts⟩
    | star => exact ⟨_, .star hparts⟩
  | untyped hp hps =>
    obtain ⟨rfl, hback⟩ := Bool.or_eq_false_iff.mp hu
    obtain ⟨event, hpart⟩ := hp.plain
    obtain ⟨events, hparts⟩ := hps.plain hback
    exact ⟨_, .untyped (.cons hpart hparts)⟩

theorem Compounds.plain (h : Compounds ts used) (hu : used = false) :
    ∃ events, Grammar.Compounds ts events := by
  induction h with
  | last hc hg =>
    obtain ⟨events, hcompound⟩ := hc.plain hu
    exact ⟨_, .last hcompound hg⟩
  | cons hc hj _ ih =>
    obtain ⟨hfront, hback⟩ := Bool.or_eq_false_iff.mp hu
    obtain ⟨events, hcompound⟩ := hc.plain hfront
    obtain ⟨more, hmore⟩ := ih hback
    exact ⟨_, .cons hcompound hj hmore⟩

end Plain

section Refused

/-- Reading stops at a namespace, wherever it is. -/
def Refused {α : Type} (result : Except Stuck α) : Prop :=
  ∃ left, result = .error (.usesNamespace left)

theorem readAttributeName_qualified (hq : Qualifier q true) (ts : List Token) :
    Refused (readAttributeName (q ++ ts)) := by
  cases hq <;> exact ⟨_, rfl⟩

theorem readTest_qualified {g : List Token} (hg : Gap g) (hq : Qualifier q true) :
    Refused (readTest (g ++ (q ++ ts))) := by
  obtain ⟨left, hl⟩ := readAttributeName_qualified hq ts
  have hhead : (q ++ ts).head? ≠ some .blank := by
    cases hq <;> exact nofun
  rw [readTest, skipBlank_gap hg hhead, hl]
  exact ⟨left, rfl⟩

theorem Test.refused (h : Test ts true) (after : List Token) :
    Refused (readTest (ts ++ after)) := by
  cases h with
  | present hg hq _ =>
    rw [List.append_assoc, List.append_assoc]
    exact readTest_qualified hg hq
  | compare hg hq _ _ _ _ =>
    rw [List.append_assoc, List.append_assoc]
    exact readTest_qualified hg hq

theorem Part.refused (h : Part ts true) (after : List Token) :
    Refused (readPart (ts ++ after)) := by
  cases h with
  | test ht =>
    obtain ⟨left, hl⟩ := ht.refused after
    rw [List.cons_append, readPart, hl]
    exact ⟨left, rfl⟩

theorem Parts.refused (h : Parts ts used) (hu : used = true) (after : List Token) :
    Refused (readParts (ts ++ after)) := by
  induction h with
  | nil => cases hu
  | @cons first front ts back hp _ ih =>
    rw [List.append_assoc, readParts_eq]
    cases front with
    | true =>
      obtain ⟨left, hl⟩ := hp.refused (ts ++ after)
      rw [hl]
      exact ⟨left, rfl⟩
    | false =>
      obtain ⟨event, hpart⟩ := hp.plain
      obtain ⟨left, hl⟩ := ih hu
      rw [readPart_of_part hpart]
      dsimp only
      rw [hl]
      exact ⟨left, rfl⟩

theorem Part.starts (h : Part ts used) :
    ∃ token rest, ts = token :: rest ∧ startsPart token = true := by
  cases h <;> exact ⟨_, _, rfl, rfl⟩

theorem Part.readType (h : Part ts used) (after : List Token) :
    TreeQuery.readType (ts ++ after) = ([], ts ++ after) := by
  obtain ⟨token, rest, rfl, ht⟩ := h.starts
  cases token <;> first | rfl | exact absurd ht nofun

/-- A bar behind the type, or parts that are refused, make the compound refused. -/
theorem readCompound_refused {type : List Event} {left : List Token}
    (hr : TreeQuery.readType ts = (type, left))
    (h : left.head? = some .pipe ∨ Refused (readParts left)) : Refused (readCompound ts) := by
  rw [readCompound, hr]
  dsimp only
  split
  · exact ⟨left, rfl⟩
  · rename_i hpipe
    obtain ⟨stopped, hs⟩ := h.resolve_left hpipe
    rw [hs]
    exact ⟨stopped, rfl⟩

theorem Compound.refused (h : Compound ts true) (after : List Token) :
    Refused (readCompound (ts ++ after)) := by
  generalize hu : true = used at h
  cases h with
  | @typed q front token ts back hq ht hps =>
    rw [List.append_assoc, List.cons_append]
    cases hq with
    | absent =>
      have hparts := hps.refused hu.symm after
      cases ht with
      | ident name => exact readCompound_refused rfl (.inr hparts)
      | star => exact readCompound_refused rfl (.inr hparts)
    | bare => exact readCompound_refused rfl (.inl rfl)
    | named ns => exact readCompound_refused rfl (.inl rfl)
    | star => exact readCompound_refused rfl (.inl rfl)
  | @untyped first front ts back hp hps =>
    have hparts := (Parts.cons hp hps).refused hu.symm after
    rw [List.append_assoc] at hparts ⊢
    exact readCompound_refused (hp.readType _) (.inr hparts)

theorem Compound.started (h : Compound ts used) : Started ts := by
  cases h with
  | typed hq ht _ =>
    cases hq with
    | absent => cases ht <;> exact ⟨_, _, rfl, rfl⟩
    | bare => exact ⟨_, _, rfl, rfl⟩
    | named ns => exact ⟨_, _, rfl, rfl⟩
    | star => exact ⟨_, _, rfl, rfl⟩
  | untyped hp _ =>
    obtain ⟨token, rest, rfl, ht⟩ := hp.starts
    refine ⟨token, _, rfl, ?_⟩
    cases token <;> first | rfl | exact absurd ht nofun

theorem Compounds.started (h : Compounds ts used) : Started ts := by
  cases h with
  | last hc _ =>
    obtain ⟨token, rest, rfl, ht⟩ := hc.started
    exact ⟨token, _, rfl, ht⟩
  | cons hc _ _ =>
    obtain ⟨token, rest, rfl, ht⟩ := hc.started
    exact ⟨token, _, rfl, ht⟩

theorem Compounds.refused (h : Compounds ts used) (hu : used = true) :
    Refused (readCompounds ts) := by
  induction h with
  | last hc _ =>
    subst hu
    obtain ⟨left, hl⟩ := hc.refused _
    rw [readCompounds_eq, hl]
    exact ⟨left, rfl⟩
  | @cons ts front js joint rest back hc hj hcs ih =>
    rw [readCompounds_eq]
    cases front with
    | true =>
      obtain ⟨left, hl⟩ := hc.refused (js ++ rest)
      rw [hl]
      exact ⟨left, rfl⟩
    | false =>
      obtain ⟨events, hcompound⟩ := hc.plain rfl
      obtain ⟨left, hl⟩ := ih hu
      rw [readCompound_of_compound hcompound hj.ended]
      dsimp only
      rw [readJoint_of_joint hj hcs.started]
      dsimp only
      rw [hl]
      exact ⟨left, rfl⟩

theorem Whole.refused (h : Whole ts true) : Refused (readList ts) := by
  obtain ⟨hg, hcs⟩ := h
  obtain ⟨token, rest, rfl, ht⟩ := hcs.started
  have hb : (token :: rest).head? ≠ some .blank := by
    rintro ⟨⟩
    cases ht
  rw [readList, skipBlank_gap hg hb]
  exact hcs.refused rfl

end Refused

theorem Whole.plain (h : Whole ts false) : ∃ events, Grammar.Whole ts events := by
  obtain ⟨hg, hcs⟩ := h
  obtain ⟨events, hplain⟩ := hcs.plain rfl
  exact ⟨events, .intro hg hplain⟩

end Grammar.Qualified

/-- A text with namespaces in it is refused for their sake, whatever else it holds, and a text
without them is read. -/
theorem parse_of_qualified {text : String} {ts : List Token} {used : Bool}
    (hl : lexemes text.toList = some ts) (h : Grammar.Qualified.Whole ts used) :
    (used = true → ∃ position,
        SelectorList.parse text = .error (.usesNamespace (.written text position))) ∧
      (used = false → ∃ list, SelectorList.parse text = .ok list) := by
  constructor
  · rintro rfl
    obtain ⟨left, hr⟩ := h.refused
    obtain ⟨placed, ht, rfl⟩ := lexemes_eq_some_iff.mp hl
    rw [SelectorList.parse, ht]
    dsimp only
    rw [hr]
    exact ⟨_, rfl⟩
  · rintro rfl
    obtain ⟨events, hw⟩ := h.plain
    exact ⟨_, parse_eq_ok_iff.mpr ⟨ts, events, hl, hw, rfl⟩⟩

/-- The first bar stands behind a namespace, the second one belongs to an operator. -/
theorem parse_of_qualified_name :
    let ts : List Token := [.star, .comma, .leftBracket, .ident "a", .pipe, .ident "a",
      .operator .segment, .ident "a", .rightBracket]
    lexemes "*,[a|a|=a]".toList = some ts ∧ Grammar.Qualified.Whole ts true ∧
      ∃ position, SelectorList.parse "*,[a|a|=a]" =
        .error (.usesNamespace (.written "*,[a|a|=a]" position)) := by
  intro ts
  have hname : ∀ {c : Char} {text : List Char}, c ≠ '\\' → isNameChar c = false →
      lexemes ('a' :: c :: text) = (lexemes (c :: text)).map (.ident "a" :: ·) := by
    intro c text he hc
    refine lexemes_writeName (List.cons_ne_nil 'a' []) rfl ?_
    rintro d ⟨⟩
    exact ⟨he, hc⟩
  have hl : lexemes "*,[a|a|=a]".toList = some ts := by
    change lexemes ['*', ',', '[', 'a', '|', 'a', '|', '=', 'a', ']'] = _
    rw [lexemes_symbol (by decide) (by rintro d ⟨⟩; rfl),
      lexemes_symbol (by decide) (by rintro d ⟨⟩; rfl),
      lexemes_symbol (by decide) (by rintro d ⟨⟩; rfl), hname (by decide) (by decide),
      lexemes_symbol (by decide) (by rintro d ⟨⟩; rfl), hname (by decide) (by decide),
      lexemes_pair (by decide) rfl, hname (by decide) (by decide),
      lexemes_symbol (by decide) (by rintro d ⟨⟩), lexemes_nil]
    rfl
  have hstar : Grammar.Qualified.Compound [.star] false := .typed .absent .star .nil
  have htest : Grammar.Qualified.Test
      [.ident "a", .pipe, .ident "a", .operator .segment, .ident "a", .rightBracket] true :=
    .compare .absent (.named "a") .absent .absent .absent (.ident "a")
  have hcompound : Grammar.Qualified.Compound
      [.leftBracket, .ident "a", .pipe, .ident "a", .operator .segment, .ident "a", .rightBracket]
      true := .untyped (.test htest) .nil
  have hw : Grammar.Qualified.Whole ts true :=
    .intro .absent (.cons hstar (.sign .comma .absent .absent) (.last hcompound .absent))
  exact ⟨hl, hw, (parse_of_qualified hl hw).1 rfl⟩

end TreeQuery
