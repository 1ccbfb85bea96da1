import TreeQuery.Proofs.Selector.Seam

/-! Where the reading of tokens stops.
What has been read by then can be ended so that the grammar derives the whole, and the ending is the
same for every stop of one kind. The token that comes next, if there is one, makes every reading
fail, whatever stands behind it. -/
namespace TreeQuery

namespace SyntaxFault

/-- The tokens that end what was read before the fault. -/
def ending : SyntaxFault → List Token
  | .emptySelector | .expectedSelector => [.star]
  | .expectedId | .expectedClass | .expectedPseudoClass | .expectedPseudoElement => [.ident "a"]
  | .expectedAttributeName | .expectedAttributeValue => [.ident "a", .rightBracket]
  | .expectedAttributeOperator | .expectedRightBracket | .unterminatedAttribute => [.rightBracket]
  | .danglingEscape | .unterminatedString | .unexpectedCharacter | .typeNotFirst => []

def endingText : SyntaxFault → List Char
  | .emptySelector | .expectedSelector => ['*']
  | .expectedId | .expectedClass | .expectedPseudoClass | .expectedPseudoElement => ['a']
  | .expectedAttributeName | .expectedAttributeValue => ['a', ']']
  | .expectedAttributeOperator | .expectedRightBracket | .unterminatedAttribute => [']']
  | .danglingEscape | .unterminatedString | .unexpectedCharacter | .typeNotFirst => []

theorem lexemes_endingText (fault : SyntaxFault) : lexemes fault.endingText = some fault.ending := by
  have hsymbol : ∀ {c}, isSymbol c = true → lexemes [c] = some [.ofSymbol c] := by
    intro c hc
    have hnone : ∀ d ∈ [].head?, Token.ofPair c d = none := by rintro d ⟨⟩
    rw [lexemes_symbol hc hnone, lexemes_nil]
    rfl
  have hstar : lexemes ['*'] = some [.star] := hsymbol (by decide)
  have hbracket : lexemes [']'] = some [.rightBracket] := hsymbol (by decide)
  have hname : ∀ {text ts}, Stops text → lexemes text = some ts →
      lexemes ('a' :: text) = some (.ident "a" :: ts) := by
    intro text ts hs ht
    have hread : lexemes (writeName ['a'] ++ text) = _ := lexemes_writeName nofun rfl hs
    rw [ht] at hread
    exact hread
  have hstops : Stops [']'] := by
    rintro c ⟨⟩
    decide
  cases fault with
  | emptySelector | expectedSelector => exact hstar
  | expectedId | expectedClass | expectedPseudoClass | expectedPseudoElement =>
    exact hname nofun lexemes_nil
  | expectedAttributeName | expectedAttributeValue => exact hname hstops hbracket
  | expectedAttributeOperator | expectedRightBracket | unterminatedAttribute => exact hbracket
  | danglingEscape | unterminatedString | unexpectedCharacter | typeNotFirst => exact lexemes_nil

end SyntaxFault

variable {fault : SyntaxFault} {stuck : Stuck} {token : Token} {text : List Char}
  {left rest next other ts used gap front : List Token} {name : String}

section Stop

theorem stopAt_concat (h : token.StopsAt text) : StopAt (ts ++ [token]) text := by
  intro last hl
  rw [List.getLast?_concat] at hl
  cases hl
  exact h

theorem stopAt_name (h : token.runsOn 'a' = false) (hg : Grammar.Gap gap) :
    StopAt (ts ++ token :: gap) ('a' :: text) := by
  cases hg with
  | absent =>
    refine stopAt_concat ?_
    rintro c ⟨⟩
    exact h
  | present =>
    rw [← List.singleton_append, ← List.append_assoc]
    refine stopAt_concat ?_
    rintro c ⟨⟩
    decide

theorem stopAt_of_mem {c : Char} (hc : c ∈ ['*', ']']) : StopAt ts [c] := by
  rintro token - d ⟨⟩
  rw [List.mem_pair] at hc
  rcases hc with rfl | rfl <;> cases token <;> simp [Token.runsOn] <;> decide

theorem stopAt_star : StopAt ts ['*'] := stopAt_of_mem List.mem_cons_self

theorem stopAt_rightBracket : StopAt ts [']'] :=
  stopAt_of_mem (List.mem_cons_of_mem _ List.mem_cons_self)

end Stop

namespace Grammar

/-- A reader gets no further than through `used`: the ending of the fault makes it something
derived, and with the token behind it nothing is read, whatever follows. -/
structure Halts {α : Type} (read : List Token → Except Stuck α) (derived : List Token → Prop)
    (fault : SyntaxFault) (used rest : List Token) : Prop where
  ended : derived (used ++ fault.ending)
  apart : ∀ ts, StopAt (ts ++ used) fault.endingText
  refused : ∀ token ∈ rest.head?, ∀ other, ∃ stuck, read (used ++ token :: other) = .error stuck

theorem head?_append_cons (h : token ∈ rest.head?) :
    (used ++ token :: other).head? = (used ++ rest).head? := by
  cases used with
  | nil => exact (Option.mem_def.mp h).symm
  | cons first used => rfl

theorem Halts.widen {α β : Type} {read : List Token → Except Stuck α}
    {outer : List Token → Except Stuck β} {derived wider : List Token → Prop}
    (h : Halts read derived fault used rest) (hd : ∀ {ts}, derived ts → wider ts)
    (hr : ∀ {ts stuck}, ts.head? = (used ++ rest).head? → read ts = .error stuck →
      ∃ stuck, outer ts = .error stuck) : Halts outer wider fault used rest := by
  refine ⟨hd h.ended, h.apart, fun token ht other => ?_⟩
  obtain ⟨stuck, hs⟩ := h.refused token ht other
  exact hr (head?_append_cons ht) hs

theorem Halts.after {α β : Type} {read : List Token → Except Stuck α}
    {outer : List Token → Except Stuck β} {derived wider : List Token → Prop}
    (h : Halts read derived fault used rest)
    (hd : ∀ {ts}, derived ts → wider (front ++ ts))
    (hr : ∀ {ts stuck}, ts.head? = (used ++ rest).head? → read ts = .error stuck →
      ∃ stuck, outer (front ++ ts) = .error stuck) :
    Halts outer wider fault (front ++ used) rest := by
  refine ⟨?_, fun ts => ?_, fun token ht other => ?_⟩
  · rw [List.append_assoc]
    exact hd h.ended
  · rw [← List.append_assoc]
    exact h.apart _
  · obtain ⟨stuck, hs⟩ := h.refused token ht other
    rw [List.append_assoc]
    exact hr (head?_append_cons ht) hs

section Token

/-- Whether a reader goes on is told from the next token alone. -/
structure ReadsOne {α : Type} (read : List Token → ReadResult α) (fault : SyntaxFault) : Prop where
  nil : read [] = .error (.malformed fault [])
  cons : ∀ token, (∃ a, ∀ rest, read (token :: rest) = .ok (a, rest)) ∨
    ∀ rest, read (token :: rest) = .error (.malformed fault (token :: rest))

theorem readsOne_ident (fault : SyntaxFault) : ReadsOne (readIdent fault) fault := by
  refine ⟨rfl, fun token => ?_⟩
  cases token <;> first | exact .inl ⟨_, fun _ => rfl⟩ | exact .inr fun _ => rfl

theorem readsOne_id : ReadsOne readId .expectedId := by
  refine ⟨rfl, fun token => ?_⟩
  cases token <;> first | exact .inl ⟨_, fun _ => rfl⟩ | exact .inr fun _ => rfl

theorem readsOne_value : ReadsOne readValue .expectedAttributeValue := by
  refine ⟨rfl, fun token => ?_⟩
  cases token <;> first | exact .inl ⟨_, fun _ => rfl⟩ | exact .inr fun _ => rfl

theorem readsOne_rightBracket (test : AttributeSelector) :
    ReadsOne (readRightBracket test) .expectedRightBracket := by
  refine ⟨rfl, fun token => ?_⟩
  cases token <;> first | exact .inl ⟨_, fun _ => rfl⟩ | exact .inr fun _ => rfl

theorem ReadsOne.of_error {α : Type} {read : List Token → ReadResult α} {stuck : Stuck}
    (hone : ReadsOne read fault) (h : read left = .error stuck) :
    stuck = .malformed fault left ∧ ∀ token ∈ left.head?, ∀ other,
      read (token :: other) = .error (.malformed fault (token :: other)) := by
  cases left with
  | nil =>
    cases hone.nil.symm.trans h
    exact ⟨rfl, nofun⟩
  | cons token left =>
    rcases hone.cons token with ⟨a, ha⟩ | hall
    · cases (ha left).symm.trans h
    · cases (hall left).symm.trans h
      refine ⟨rfl, ?_⟩
      rintro token ⟨⟩
      exact hall

/-- A namespace is refused too, though not as malformed. -/
theorem readAttributeName_stuck (h : readAttributeName left = .error (.malformed fault rest)) :
    fault = .expectedAttributeName ∧ rest = left ∧ ∀ token ∈ left.head?, ∀ other,
      ∃ stuck, readAttributeName (token :: other) = .error stuck := by
  revert h
  fun_cases readAttributeName left with
  | case1 => rintro ⟨⟩
  | case2 => rintro ⟨⟩
  | case3 => rintro ⟨⟩
  | case4 left _ _ hp =>
    intro h
    obtain ⟨he, hi⟩ := (readsOne_ident _).of_error h
    cases he
    refine ⟨rfl, rfl, fun token ht other => ?_⟩
    cases hr : readAttributeName (token :: other) with
    | error stuck => exact ⟨stuck, rfl⟩
    | ok result =>
      have hname := hi token ht other
      rw [(readAttributeName_iff.mp hr).1] at hname
      cases hname

end Token

section Part

theorem halts_test (hd : ∃ test, Test (used ++ fault.ending) test)
    (ha : ∀ ts, StopAt (ts ++ .leftBracket :: used) fault.endingText)
    (hr : ∀ token ∈ rest.head?, ∀ other, ∃ stuck, readTest (used ++ token :: other) = .error stuck) :
    Halts readPart (fun ts => ∃ event, Part ts event) fault (.leftBracket :: used) rest := by
  obtain ⟨test, hd⟩ := hd
  refine ⟨⟨_, .test hd⟩, ha, fun token ht other => ?_⟩
  obtain ⟨stuck, hs⟩ := hr token ht other
  exact ⟨stuck, map_eq_error_iff.mpr hs⟩

theorem head?_cons_ne (ht : token ∈ (skipBlank left).head?) :
    (token :: other).head? ≠ some .blank := by
  rw [List.head?_cons, ← Option.mem_def.mp ht]
  exact head?_skipBlank left

theorem readTest_refused {h : List Token} (hg : Gap gap) (hh : Gap h) (hb : token ≠ .blank)
    (hr : ∀ left, ∃ stuck, readComparison name (token :: left) = .error stuck) :
    ∃ stuck, readTest (gap ++ .ident name :: (h ++ token :: other)) = .error stuck := by
  have hhead : (token :: other).head? ≠ some .blank := fun he => hb (Option.some.inj he)
  rw [readTest, skipBlank_gap hg (by rintro ⟨⟩)]
  cases hn : readAttributeName (.ident name :: (h ++ token :: other)) with
  | error stuck => exact ⟨stuck, rfl⟩
  | ok result =>
    obtain ⟨found, after⟩ := result
    cases (readAttributeName_iff.mp hn).1
    dsimp only
    rw [skipBlank_gap hh hhead]
    exact hr other

theorem halts_comparison {h : List Token}
    (hd : ∃ test, Test (gap ++ .ident name :: (h ++ (used ++ fault.ending))) test)
    (ha : ∀ ts, StopAt (ts ++ used) fault.endingText)
    (hr : ∀ token ∈ rest.head?, ∀ other, ∃ stuck,
      readTest (gap ++ .ident name :: (h ++ (used ++ token :: other))) = .error stuck) :
    Halts readPart (fun ts => ∃ event, Part ts event) fault
      (.leftBracket :: (gap ++ .ident name :: (h ++ used))) rest := by
  refine halts_test ?_ (fun ts => ?_) fun token ht other => ?_
  · rw [List.append_assoc, List.cons_append, List.append_assoc]
    exact hd
  · have hstop := ha (ts ++ .leftBracket :: (gap ++ .ident name :: h))
    simpa only [List.append_assoc, List.cons_append] using hstop
  · rw [List.append_assoc, List.cons_append, List.append_assoc]
    exact hr token ht other

theorem readComparison_halts {h : List Token} (hg : Gap gap) (hh : Gap h) (hs : Spaced left)
    (hb : left.head? ≠ some .blank)
    (he : readComparison name left = .error (.malformed fault rest)) :
    ∃ used, left = used ++ rest ∧ Halts readPart (fun ts => ∃ event, Part ts event) fault
      (.leftBracket :: (gap ++ .ident name :: (h ++ used))) rest := by
  have hread : ∀ op left, readTest (gap ++ .ident name :: (h ++ .operator op :: left)) =
      readComparison name (.operator op :: left) := fun _ _ =>
    readTest_of_name hg hh (by rintro ⟨⟩) (by rintro ⟨⟩)
  revert he
  fun_cases readComparison name left with
  | case1 => rintro ⟨⟩
  | case2 op left stuck hv =>
    rintro ⟨⟩
    obtain ⟨i, hi, hl⟩ := exists_gap hs.tail
    obtain ⟨he, hrefused⟩ := readsOne_value.of_error hv
    cases he
    refine ⟨.operator op :: i, congrArg (Token.operator op :: ·) hl, halts_comparison
      ⟨_, .compare hg hh hi .absent (.ident "a")⟩ (fun ts => stopAt_name rfl hi) ?_⟩
    intro token ht other
    have hskip : skipBlank (i ++ token :: other) = token :: other :=
      skipBlank_gap hi (head?_cons_ne ht)
    rw [List.cons_append, hread, readComparison, hskip, hrefused token ht other]
    exact ⟨_, rfl⟩
  | case3 op left value after hv =>
    intro hclose
    obtain ⟨i, hi, hl⟩ := exists_gap hs.tail
    obtain ⟨vt, ht, hvt⟩ := readValue_iff.mp hv
    rw [ht] at hl
    have hspaced := hs.tail
    rw [hl] at hspaced
    obtain ⟨j, hj, hafter⟩ := exists_gap hspaced.right.tail
    obtain ⟨he, hrefused⟩ := (readsOne_rightBracket _).of_error hclose
    cases he
    refine ⟨.operator op :: (i ++ vt :: j), ?_, halts_comparison ?_
      (fun ts => stopAt_rightBracket) fun token ht other => ?_⟩
    · rw [List.cons_append, List.append_assoc, List.cons_append, ← hafter, ← hl]
    · rw [List.cons_append, List.append_assoc, List.cons_append]
      exact ⟨_, .compare hg hh hi hj hvt⟩
    · have hvalue : readValue (vt :: (j ++ token :: other)) = .ok (value, j ++ token :: other) :=
        readValue_iff.mpr ⟨vt, rfl, hvt⟩
      have hskip : skipBlank (i ++ vt :: (j ++ token :: other)) = vt :: (j ++ token :: other) :=
        skipBlank_gap hi hvt.head?_ne
      rw [List.cons_append, List.append_assoc, List.cons_append, hread, readComparison, hskip,
        hvalue]
      dsimp only
      rw [skipBlank_gap hj (head?_cons_ne ht), hrefused token ht other]
      exact ⟨_, rfl⟩
  | case4 =>
    rintro ⟨⟩
    exact ⟨[], rfl, halts_comparison ⟨_, .present hg hh⟩ (fun ts => stopAt_rightBracket)
      fun _ ht => absurd ht (Option.not_mem_none _)⟩
  | case5 left hclosed hop hne =>
    rintro ⟨⟩
    refine ⟨[], rfl, halts_comparison ⟨_, .present hg hh⟩ (fun ts => stopAt_rightBracket) ?_⟩
    intro token ht other
    obtain ⟨rest, rfl⟩ := List.head?_eq_some_iff.mp ht
    refine readTest_refused hg hh (fun he => hb (congrArg some he)) fun left => ?_
    cases token <;>
      first | exact ⟨_, rfl⟩ | exact absurd rfl (hclosed _) | exact absurd rfl (hop _ _)

theorem readTest_halts (hs : Spaced left) (h : readTest left = .error (.malformed fault rest)) :
    ∃ used, left = used ++ rest ∧
      Halts readPart (fun ts => ∃ event, Part ts event) fault (.leftBracket :: used) rest := by
  obtain ⟨g, hg, hl⟩ := exists_gap hs
  rw [readTest] at h
  cases hn : readAttributeName (skipBlank left) with
  | error stuck =>
    rw [hn] at h
    cases h
    obtain ⟨rfl, rfl, hrefused⟩ := readAttributeName_stuck hn
    refine ⟨g, hl, halts_test ⟨_, .present hg .absent⟩ (fun ts => stopAt_name rfl hg) ?_⟩
    intro token ht other
    obtain ⟨stuck, hstuck⟩ := hrefused token ht other
    rw [readTest, skipBlank_gap hg (head?_cons_ne ht), hstuck]
    exact ⟨stuck, rfl⟩
  | ok result =>
    obtain ⟨name, after⟩ := result
    rw [hn] at h
    rw [(readAttributeName_iff.mp hn).1] at hl
    subst hl
    have hspaced := hs.right.tail
    obtain ⟨k, hk, hl⟩ := exists_gap hspaced
    rw [hl] at hspaced
    obtain ⟨used, hu, hhalts⟩ := readComparison_halts hg hk hspaced.right (head?_skipBlank after) h
    refine ⟨g ++ .ident name :: (k ++ used), ?_, hhalts⟩
    simp only [List.append_assoc, List.cons_append]
    rw [← hu, ← hl]

theorem halts_sign {sign : Token} {event : Event} {make : String → Event} {reason : SyntaxFault}
    {read : List Token → ReadResult String} (hone : ReadsOne read reason)
    (hread : ∀ left, readPart (sign :: left) = asEvent make (read left))
    (hd : Part (sign :: reason.ending) event) (hs : sign.StopsAt reason.endingText)
    (h : asEvent make (read left) = .error (.malformed fault rest)) :
    ∃ used, sign :: left = used ++ rest ∧
      Halts readPart (fun ts => ∃ event, Part ts event) fault used rest := by
  obtain ⟨he, hr⟩ := hone.of_error (map_eq_error_iff.mp h)
  cases he
  refine ⟨[sign], rfl, ⟨event, hd⟩, fun ts => stopAt_concat hs, fun token ht other => ?_⟩
  rw [List.singleton_append, hread, hr token ht other]
  exact ⟨_, rfl⟩

theorem readPart_halts (hs : Spaced left) (h : readPart left = .error (.malformed fault rest)) :
    ∃ used, left = used ++ rest ∧
      Halts readPart (fun ts => ∃ event, Part ts event) fault used rest := by
  have hstops : ∀ {sign : Token}, sign.runsOn 'a' = false → sign.StopsAt ['a'] := by
    rintro sign hr c ⟨⟩
    exact hr
  revert h
  fun_cases readPart left with
  | case1 left =>
    exact halts_sign readsOne_id (fun _ => rfl) (.id (.ident "a")) (hstops rfl)
  | case2 left =>
    exact halts_sign (readsOne_ident _) (fun _ => rfl) (.className "a") (hstops rfl)
  | case3 left =>
    intro h
    obtain ⟨used, rfl, hhalts⟩ := readTest_halts hs.tail (map_eq_error_iff.mp h)
    exact ⟨_, rfl, hhalts⟩
  | case4 left =>
    exact halts_sign (readsOne_ident _) (fun _ => rfl) (.pseudoClass "a") (hstops rfl)
  | case5 left =>
    exact halts_sign (readsOne_ident _) (fun _ => rfl) (.pseudoElement "a") (hstops rfl)
  | case6 => rintro ⟨⟩

end Part

section Compound

variable {event : Event} {events parts : List Event}

theorem readParts_halts (hs : Spaced left) (h : readParts left = .error (.malformed fault rest)) :
    ∃ used, left = used ++ rest ∧
      Halts readParts (fun ts => ∃ event events, Parts ts (event :: events)) fault used rest := by
  fun_induction readParts left with
  | case1 left stuck hp =>
    cases h
    obtain ⟨used, rfl, hhalts⟩ := readPart_halts hs hp
    refine ⟨used, rfl, hhalts.widen ?_ fun _ he => ⟨_, by rw [readParts_eq, he]⟩⟩
    rintro ts ⟨event, hpart⟩
    have hone : Parts (ts ++ []) [event] := .cons hpart .nil
    rw [List.append_nil] at hone
    exact ⟨event, [], hone⟩
  | case2 => cases h
  | case3 left event next hp ih =>
    obtain ⟨front, rfl, hpart⟩ := exists_part hs hp
    obtain ⟨used, rfl, hhalts⟩ := ih hs.right (map_eq_error_iff.mp h)
    refine ⟨front ++ used, (List.append_assoc ..).symm, ?_⟩
    refine hhalts.after ?_ fun _ he => ?_
    · rintro ts ⟨first, events, hparts⟩
      exact ⟨event, first :: events, .cons hpart hparts⟩
    · rw [readParts_eq, readPart_of_part hpart]
      dsimp only
      rw [he]
      exact ⟨_, rfl⟩

theorem readPart_of_readParts (h : readParts left = .ok (parts, rest)) :
    readPart rest = .ok none := by
  fun_induction readParts left generalizing parts with
  | case1 => cases h
  | case2 left hp =>
    cases h
    exact hp
  | case3 left event next hp ih =>
    obtain ⟨⟨more, out⟩, hr, he⟩ := map_eq_ok_iff.mp h
    cases he
    exact ih hr

theorem asEvent_ne_none {α : Type} {make : α → Event} {result : ReadResult α} :
    asEvent make result ≠ .ok none := by
  cases result <;> exact nofun

theorem readPart_of_head? (h : readPart rest = .ok none) (hh : next.head? = rest.head?) :
    readPart next = .ok none := by
  cases next with
  | nil => rfl
  | cons token next =>
    obtain ⟨rest, rfl⟩ := List.head?_eq_some_iff.mp hh.symm
    cases token <;> first | rfl | exact absurd h asEvent_ne_none

theorem readType_of_head? (hh : next.head? = rest.head?) :
    (readType next).1 = (readType rest).1 := by
  cases next with
  | nil => rw [List.head?_eq_none_iff.mp hh.symm]
  | cons token next =>
    obtain ⟨rest, rfl⟩ := List.head?_eq_some_iff.mp hh.symm
    cases token <;> rfl

theorem readType_local {type : List Event} (h : TreeQuery.readType left = (type, rest)) :
    ∃ front, left = front ++ rest ∧ (type = [] → front = [] ∧ (TreeQuery.readType rest).1 = []) ∧
      (∀ {ts parts}, Parts ts parts → type ++ parts ≠ [] → Compound (front ++ ts) (type ++ parts)) ∧
      ∀ {next}, next.head? = rest.head? → TreeQuery.readType (front ++ next) = (type, next) := by
  revert h
  fun_cases TreeQuery.readType left with
  | case1 name left =>
    rintro ⟨⟩
    exact ⟨[.ident name], rfl, (by rintro ⟨⟩), fun hps _ => .typed hps, fun _ => rfl⟩
  | case2 left =>
    rintro ⟨⟩
    exact ⟨[.star], rfl, (by rintro ⟨⟩), fun hps _ => .star hps, fun _ => rfl⟩
  | case3 left hi hs =>
    rintro ⟨⟩
    have hnone : (TreeQuery.readType left).1 = [] := by
      fun_cases TreeQuery.readType left with
      | case1 name left => exact absurd rfl (hi name left)
      | case2 left => exact absurd rfl (hs left)
      | case3 => rfl
    refine ⟨[], rfl, fun _ => ⟨rfl, hnone⟩, fun {ts parts} hps hne => ?_, fun {next} hh => ?_⟩
    · cases parts with
      | nil => exact absurd rfl hne
      | cons event parts => exact .untyped hps
    · rw [← readType_of_head? hh] at hnone
      rw [List.nil_append]
      revert hnone
      fun_cases TreeQuery.readType next with
      | case1 => rintro ⟨⟩
      | case2 => rintro ⟨⟩
      | case3 => exact fun _ => rfl

theorem readCompound_eq {type : List Event} (hs : Spaced left)
    (hr : TreeQuery.readType left = (type, next)) (hp : readParts next = .ok (parts, rest)) :
    ∃ front used, left = front ++ (used ++ rest) ∧
      (type ++ parts = [] → front ++ used = [] ∧ (TreeQuery.readType rest).1 = []) ∧
      (type ++ parts ≠ [] → Compound (front ++ used) (type ++ parts)) ∧
      ∀ {other}, other.head? = rest.head? → readCompound (front ++ (used ++ other)) =
        if (used ++ rest).head? = some .pipe then .error (.usesNamespace (used ++ other))
        else if !(TreeQuery.readType rest).1.isEmpty then .error (.malformed .typeNotFirst other)
        else if (type ++ parts).isEmpty then .error (.malformed .expectedSelector other)
        else .ok (type ++ parts, other) := by
  obtain ⟨front, rfl, hempty, hcompound, htype⟩ := readType_local hr
  obtain ⟨used, rfl, hps⟩ := exists_parts hs.right hp
  refine ⟨front, used, rfl, fun he => ?_, fun hne => hcompound hps hne, fun {other} hh => ?_⟩
  · obtain ⟨htype, hparts⟩ := List.append_eq_nil_iff.mp he
    obtain ⟨rfl, hnone⟩ := hempty htype
    rw [hparts] at hps
    cases hps
    exact ⟨rfl, hnone⟩
  · have hhead : (used ++ other).head? = (used ++ rest).head? := by
      cases used with
      | nil => exact hh
      | cons first used => rfl
    have hnone := readPart_of_head? (readPart_of_readParts hp) hh
    rw [readCompound_of_parts (htype hhead) hps hnone, hhead, readType_of_head? hh]

theorem readCompound_local (hs : Spaced left) (h : readCompound left = .ok (events, rest)) :
    ∃ used, left = used ++ rest ∧ Compound used events ∧ ∀ {other}, other.head? = rest.head? →
      readCompound (used ++ other) = .ok (events, other) := by
  obtain ⟨⟨type, next⟩, hr⟩ : ∃ split, TreeQuery.readType left = split := ⟨_, rfl⟩
  obtain ⟨parts, hp, rfl, hne⟩ := parts_of_readCompound hr h
  obtain ⟨front, used, hl, -, hcompound, hread⟩ := readCompound_eq hs hr hp
  refine ⟨front ++ used, hl.trans (List.append_assoc ..).symm, hcompound hne, fun {other} hh => ?_⟩
  have hrest : readCompound (front ++ (used ++ rest)) = _ := hread rfl
  rw [← hl, h] at hrest
  split at hrest
  · cases hrest
  rename_i hpipe
  split at hrest
  · cases hrest
  rename_i hfirst
  split at hrest
  · cases hrest
  rename_i hsome
  rw [List.append_assoc, hread hh, if_neg hpipe, if_neg hfirst, if_neg hsome]

theorem readCompound_halts (hs : Spaced left)
    (h : readCompound left = .error (.malformed fault rest)) :
    ∃ used, left = used ++ rest ∧
      Halts readCompound (fun ts => ∃ events, Compound ts events) fault used rest := by
  obtain ⟨⟨type, after⟩, hr⟩ : ∃ split, TreeQuery.readType left = split := ⟨_, rfl⟩
  cases hp : readParts after with
  | error stuck =>
    obtain ⟨front, rfl, -, hcompound, htype⟩ := readType_local hr
    rw [readCompound, hr] at h
    dsimp only at h
    rw [hp] at h
    split at h
    · cases h
    cases h
    obtain ⟨used, rfl, hhalts⟩ := readParts_halts hs.right hp
    refine ⟨front ++ used, (List.append_assoc ..).symm, hhalts.after ?_ fun hh he => ?_⟩
    · rintro ts ⟨event, events, hps⟩
      exact ⟨_, hcompound hps (by simp)⟩
    · rw [readCompound, htype hh]
      dsimp only
      rw [he]
      split
      · exact ⟨_, rfl⟩
      · exact ⟨_, rfl⟩
  | ok result =>
    obtain ⟨parts, out⟩ := result
    obtain ⟨front, used, hl, hempty, hcompound, hread⟩ := readCompound_eq hs hr hp
    have hrest : readCompound (front ++ (used ++ out)) = _ := hread rfl
    rw [← hl, h] at hrest
    have hnext : ∀ {token other}, token ∈ out.head? → (token :: other).head? = out.head? :=
      fun ht => (Option.mem_def.mp ht).symm
    refine ⟨front ++ used, ?_⟩
    split at hrest
    · cases hrest
    rename_i hpipe
    split at hrest
    · rename_i hfirst
      cases hrest
      have hne : type ++ parts ≠ [] := fun he => by simp [(hempty he).2] at hfirst
      refine ⟨hl.trans (List.append_assoc ..).symm, ⟨type ++ parts, ?_⟩, fun ts => stopAt_nil, ?_⟩
      · rw [SyntaxFault.ending, List.append_nil]
        exact hcompound hne
      · intro token ht other
        rw [List.append_assoc, hread (hnext ht), if_neg hpipe, if_pos hfirst]
        exact ⟨_, rfl⟩
    rename_i hfirst
    split at hrest
    · rename_i hnone
      cases hrest
      have hused := (hempty (List.isEmpty_iff.mp hnone)).1
      refine ⟨hl.trans (List.append_assoc ..).symm, ⟨[.element "*"], ?_⟩, fun ts => stopAt_star, ?_⟩
      · rw [hused]
        exact .star .nil
      · intro token ht other
        rw [List.append_assoc, hread (hnext ht), if_neg hpipe, if_neg hfirst, if_pos hnone]
        exact ⟨_, rfl⟩
    · cases hrest

end Compound

section Whole

variable {event : Event} {events : List Event}

theorem head?_of_readJoint (h : readJoint left = .ok (some (event, next))) :
    next.head? ≠ some .blank := by
  rw [readJoint] at h
  split at h
  · cases h
  · cases h; exact head?_skipBlank _
  · cases h; exact head?_skipBlank _
  · cases h; exact head?_skipBlank _
  · cases h; exact head?_skipBlank _
  · split at h
    · cases h; exact head?_skipBlank _
    · cases h

theorem readJoint_local (hj : Joint used event)
    (h : readJoint (used ++ next) = .ok (some (event, next))) (hh : other.head? = next.head?) :
    readJoint (used ++ other) = .ok (some (event, other)) := by
  have hb := head?_of_readJoint h
  cases hj with
  | blank =>
    cases other with
    | nil =>
      rw [List.head?_eq_none_iff.mp hh.symm] at h
      cases h
    | cons token other =>
      obtain ⟨rest, rfl⟩ := List.head?_eq_some_iff.mp hh.symm
      cases token <;> first | rfl | exact absurd rfl hb | cases h
  | sign hs hg hk =>
    rw [← hh] at hb
    rw [List.append_assoc, List.cons_append]
    exact readJoint_of_sign hs hg hk hb

theorem readJoint_stuck (h : readJoint left = .error stuck) :
    stuck = .malformed .unexpectedCharacter left ∧ ∀ token ∈ left.head?, ∀ other,
      readJoint (token :: other) = .error (.malformed .unexpectedCharacter (token :: other)) := by
  rw [readJoint] at h
  split at h
  · cases h
  · cases h
  · cases h
  · cases h
  · cases h
  split at h
  · cases h
  rename_i hb
  rw [skipBlank_of_head hb] at *
  cases h
  refine ⟨rfl, fun token ht other => ?_⟩
  obtain ⟨rest, rfl⟩ := List.head?_eq_some_iff.mp ht
  cases token <;> first | rfl | simp_all

theorem readCompounds_halts (hs : Spaced left)
    (h : readCompounds left = .error (.malformed fault rest)) :
    ∃ used, left = used ++ rest ∧
      Halts readCompounds (fun ts => ∃ events, Compounds ts events) fault used rest := by
  fun_induction readCompounds left with
  | case1 left stuck hc =>
    cases h
    obtain ⟨used, rfl, hhalts⟩ := readCompound_halts hs hc
    refine ⟨used, rfl, hhalts.widen ?_ fun _ he => ⟨_, by rw [readCompounds_eq, he]⟩⟩
    rintro ts ⟨events, hcompound⟩
    have hone : Compounds (ts ++ []) events := .last hcompound .absent
    rw [List.append_nil] at hone
    exact ⟨events, hone⟩
  | case2 left events after hc stuck hj =>
    cases h
    obtain ⟨used, rfl, hcompound, hread⟩ := readCompound_local hs hc
    obtain ⟨he, hrefused⟩ := readJoint_stuck hj
    cases he
    refine ⟨used, rfl, ⟨events, .last hcompound .absent⟩, fun ts => stopAt_nil, ?_⟩
    intro token ht other
    have hnext : (token :: other).head? = rest.head? := (Option.mem_def.mp ht).symm
    rw [readCompounds_eq, hread hnext]
    dsimp only
    rw [hrefused token ht other]
    exact ⟨_, rfl⟩
  | case3 => cases h
  | case4 left events after hc event next hj ih =>
    obtain ⟨front, rfl, hcompound⟩ := exists_compound hs hc
    obtain ⟨js, rfl, hjoint⟩ := exists_joint hs.right hj
    obtain ⟨used, rfl, hhalts⟩ := ih hs.right.right (map_eq_error_iff.mp h)
    refine ⟨front ++ js ++ used, by simp only [List.append_assoc], hhalts.after ?_ fun hh he => ?_⟩
    · rintro ts ⟨more, hcs⟩
      rw [List.append_assoc]
      exact ⟨_, .cons hcompound hjoint hcs⟩
    · rw [List.append_assoc, readCompounds_eq, readCompound_of_compound hcompound hjoint.ended]
      dsimp only
      rw [readJoint_local hjoint hj hh]
      dsimp only
      rw [he]
      exact ⟨_, rfl⟩

/-- Reading a whole list stops behind tokens that could still become a list, and the token that
comes next can not. -/
theorem readList_halts (hs : Spaced left) (h : readList left = .error (.malformed fault rest)) :
    ∃ used, left = used ++ rest ∧
      Halts readList (fun ts => ∃ events, Whole ts events) fault used rest := by
  obtain ⟨gap, hg, hl⟩ := exists_gap hs
  have hb := head?_skipBlank left
  rw [readList] at h
  split at h
  · rename_i hn
    cases h
    rw [hn] at hl
    exact ⟨gap, hl, ⟨_, .intro hg (.last (.star .nil) .absent)⟩, fun ts => stopAt_star,
      fun _ ht => absurd ht (Option.not_mem_none _)⟩
  · rename_i hne
    rw [hl] at hs
    obtain ⟨used, hu, hhalts⟩ := readCompounds_halts hs.right h
    refine ⟨gap ++ used, by rw [List.append_assoc, ← hu, ← hl], hhalts.after ?_ fun {ts _} hh he => ?_⟩
    · rintro ts ⟨events, hcs⟩
      exact ⟨events, .intro hg hcs⟩
    · rw [← hu] at hh
      rw [readList, skipBlank_gap hg (hh ▸ hb)]
      split
      · exact ⟨_, rfl⟩
      · exact ⟨_, he⟩

end Whole

end Grammar

end TreeQuery
