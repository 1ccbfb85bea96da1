import TreeQuery.Selector.Event
import TreeQuery.Selector.Fault
import TreeQuery.Selector.Scan

/-! How tokens are read as the events of a selector list.
Each function takes the tokens not yet used and gives back those that it leaves.
Where reading stops short, what is left says where. -/
namespace TreeQuery

/-- Why reading stops, and the tokens left from the place where it does. -/
inductive Stuck where
  | malformed (fault : SyntaxFault) (left : List Token)
  | usesNamespace (left : List Token)
  deriving DecidableEq, Repr

def Stuck.left : Stuck → List Token
  | .malformed _ left => left
  | .usesNamespace left => left

abbrev ReadResult (α : Type) := Except Stuck (α × List Token)

def skipBlank : List Token → List Token
  | .blank :: left => skipBlank left
  | left => left

def readIdent (fault : SyntaxFault) : List Token → ReadResult String
  | .ident name :: left => .ok (name, left)
  | left => .error (.malformed fault left)

def readId : List Token → ReadResult String
  | .ident name :: left => .ok (name, left)
  | .numeral name :: left => .ok (name, left)
  | left => .error (.malformed .expectedId left)

def readValue : List Token → ReadResult String
  | .ident value :: left => .ok (value, left)
  | .numeral value :: left => .ok (value, left)
  | .quoted value :: left => .ok (value, left)
  | left => .error (.malformed .expectedAttributeValue left)

/-- An attribute name, which no namespace may qualify. -/
def readAttributeName : List Token → ReadResult String
  | .pipe :: left => .error (.usesNamespace (.pipe :: left))
  | .star :: .pipe :: left => .error (.usesNamespace (.star :: .pipe :: left))
  | .ident _ :: .pipe :: left => .error (.usesNamespace (.pipe :: left))
  | left => readIdent .expectedAttributeName left

def readRightBracket (test : AttributeSelector) : List Token → ReadResult AttributeSelector
  | .rightBracket :: left => .ok (test, left)
  | left => .error (.malformed .expectedRightBracket left)

/-- What follows an attribute name: the closing bracket, or an operator and a value before it. -/
def readComparison (name : String) : List Token → ReadResult AttributeSelector
  | .rightBracket :: left => .ok (.present name, left)
  | .operator op :: left =>
    match readValue (skipBlank left) with
    | .error stuck => .error stuck
    | .ok (value, left) => readRightBracket (.compare name op value) (skipBlank left)
  | [] => .error (.malformed .unterminatedAttribute [])
  | left => .error (.malformed .expectedAttributeOperator left)

def readTest (left : List Token) : ReadResult AttributeSelector :=
  match readAttributeName (skipBlank left) with
  | .error stuck => .error stuck
  | .ok (name, left) => readComparison name (skipBlank left)

def asEvent {α : Type} (event : α → Event) (result : ReadResult α) :
    Except Stuck (Option (Event × List Token)) :=
  result.map fun (content, left) => some (event content, left)

/-- One part of a compound after its type, where the tokens start with one. -/
def readPart : List Token → Except Stuck (Option (Event × List Token))
  | .hash :: left => asEvent .id (readId left)
  | .dot :: left => asEvent .className (readIdent .expectedClass left)
  | .leftBracket :: left => asEvent .test (readTest left)
  | .colon :: left => asEvent .pseudoClass (readIdent .expectedPseudoClass left)
  | .doubleColon :: left => asEvent .pseudoElement (readIdent .expectedPseudoElement left)
  | _ => .ok none

def readType : List Token → List Event × List Token
  | .ident name :: left => ([.element name], left)
  | .star :: left => ([.element "*"], left)
  | left => ([], left)

theorem skipBlank_length (left : List Token) : (skipBlank left).length ≤ left.length := by
  fun_induction skipBlank left with
  | case1 left ih =>
    rw [List.length_cons]
    omega
  | case2 => exact Nat.le_refl _

theorem readIdent_length {fault : SyntaxFault} {left : List Token} {name : String}
    {after : List Token} (h : readIdent fault left = .ok (name, after)) :
    after.length < left.length := by
  fun_cases readIdent fault left <;> simp_all [readIdent]

theorem readId_length {left : List Token} {name : String} {after : List Token}
    (h : readId left = .ok (name, after)) : after.length < left.length := by
  fun_cases readId left <;> simp_all [readId]

theorem readValue_length {left : List Token} {value : String} {after : List Token}
    (h : readValue left = .ok (value, after)) : after.length < left.length := by
  fun_cases readValue left <;> simp_all [readValue]

theorem readAttributeName_length {left : List Token} {name : String} {after : List Token}
    (h : readAttributeName left = .ok (name, after)) : after.length < left.length := by
  unfold readAttributeName at h
  split at h
  · cases h
  · cases h
  · cases h
  · exact readIdent_length h

theorem readRightBracket_length {test : AttributeSelector} {left : List Token}
    {result : AttributeSelector} {after : List Token}
    (h : readRightBracket test left = .ok (result, after)) : after.length < left.length := by
  fun_cases readRightBracket test left <;> simp_all [readRightBracket]

theorem readComparison_length {name : String} {left : List Token} {test : AttributeSelector}
    {after : List Token} (h : readComparison name left = .ok (test, after)) :
    after.length < left.length := by
  unfold readComparison at h
  split at h
  · cases h
    simp
  · rename_i op left
    split at h
    · cases h
    · rename_i value rest hv
      have h₁ := readRightBracket_length h
      have h₂ := readValue_length hv
      have h₃ := skipBlank_length left
      have h₄ := skipBlank_length rest
      simp only [List.length_cons]
      omega
  · cases h
  · cases h

theorem readTest_length {left : List Token} {test : AttributeSelector} {after : List Token}
    (h : readTest left = .ok (test, after)) : after.length < left.length := by
  unfold readTest at h
  split at h
  · cases h
  · rename_i name rest hn
    have h₁ := readComparison_length h
    have h₂ := readAttributeName_length hn
    have h₃ := skipBlank_length left
    have h₄ := skipBlank_length rest
    omega

theorem asEvent_eq_ok_some {α : Type} {event : α → Event} {result : ReadResult α} {e : Event}
    {after : List Token} (h : asEvent event result = .ok (some (e, after))) :
    ∃ a, result = .ok (a, after) ∧ event a = e := by
  obtain ⟨⟨a, rest⟩, hr, hs⟩ := map_eq_ok_iff.1 h
  cases hs
  exact ⟨a, hr, rfl⟩

theorem readPart_length {left : List Token} {event : Event} {after : List Token}
    (h : readPart left = .ok (some (event, after))) : after.length < left.length := by
  unfold readPart at h
  split at h
  case h_6 => cases h
  all_goals
    obtain ⟨_, hr, -⟩ := asEvent_eq_ok_some h
    refine Nat.lt_succ_of_lt ?_
    first
      | exact readId_length hr
      | exact readIdent_length hr
      | exact readTest_length hr

def readParts (left : List Token) : ReadResult (List Event) :=
  match _h : readPart left with
  | .error stuck => .error stuck
  | .ok none => .ok ([], left)
  | .ok (some (event, left)) =>
    (readParts left).map fun (events, left) => (event :: events, left)
termination_by left.length
decreasing_by exact readPart_length _h

theorem readParts_length {left : List Token} {events : List Event} {after : List Token}
    (h : readParts left = .ok (events, after)) : after.length + events.length ≤ left.length := by
  fun_induction readParts left generalizing events after with
  | case1 => cases h
  | case2 => cases h; simp
  | case3 left event rest hp ih =>
    obtain ⟨⟨inner, out⟩, hr, hs⟩ := map_eq_ok_iff.1 h
    cases hs
    have := ih hr
    have := readPart_length hp
    simp only [List.length_cons]
    omega

theorem readType_length (left : List Token) :
    (readType left).2.length + (readType left).1.length = left.length := by
  fun_cases readType left <;> simp

/-- A compound: at most one type, which stands first, and then its parts. -/
def readCompound (left : List Token) : ReadResult (List Event) :=
  let (type, left) := readType left
  if left.head? = some .pipe then .error (.usesNamespace left)
  else match readParts left with
    | .error stuck => .error stuck
    | .ok (parts, left) =>
      if !(readType left).1.isEmpty then .error (.malformed .typeNotFirst left)
      else if (type ++ parts).isEmpty then .error (.malformed .expectedSelector left)
      else .ok (type ++ parts, left)

theorem readCompound_length {left : List Token} {events : List Event} {after : List Token}
    (h : readCompound left = .ok (events, after)) : after.length < left.length := by
  have ht := readType_length left
  unfold readCompound at h
  simp only at h
  split at h
  · cases h
  · split at h
    · cases h
    · rename_i parts rest hp
      have := readParts_length hp
      split at h
      · cases h
      · split at h
        · cases h
        · rename_i hne
          cases h
          have : 0 < ((readType left).1 ++ parts).length :=
            List.length_pos_iff.2 fun he => hne (by rw [he]; rfl)
          rw [List.length_append] at this
          omega

/-- What joins a compound to the one after it, where there is another. -/
def readJoint (left : List Token) : Except Stuck (Option (Event × List Token)) :=
  match skipBlank left with
  | [] => .ok none
  | .comma :: rest => .ok (some (.nextSelector, skipBlank rest))
  | .greater :: rest => .ok (some (.combinator .child, skipBlank rest))
  | .plus :: rest => .ok (some (.combinator .nextSibling, skipBlank rest))
  | .tilde :: rest => .ok (some (.combinator .subsequentSibling, skipBlank rest))
  | rest =>
    if left.head? = some .blank then .ok (some (.combinator .descendant, rest))
    else .error (.malformed .unexpectedCharacter rest)

theorem readJoint_length {left : List Token} {event : Event} {after : List Token}
    (h : readJoint left = .ok (some (event, after))) : after.length ≤ left.length := by
  have hb := skipBlank_length left
  unfold readJoint at h
  split at h
  case h_1 => cases h
  case h_6 =>
    split at h
    · cases h
      exact hb
    · cases h
  all_goals
    rename_i rest hs
    cases h
    have := skipBlank_length rest
    rw [hs, List.length_cons] at hb
    omega

def readCompounds (left : List Token) : Except Stuck (List Event) :=
  match _hc : readCompound left with
  | .error stuck => .error stuck
  | .ok (parts, rest) =>
    match _hj : readJoint rest with
    | .error stuck => .error stuck
    | .ok none => .ok parts
    | .ok (some (joint, next)) => (readCompounds next).map fun events => parts ++ joint :: events
termination_by left.length
decreasing_by
  have := readCompound_length _hc
  have := readJoint_length _hj
  omega

def readList (left : List Token) : Except Stuck (List Event) :=
  match skipBlank left with
  | [] => .error (.malformed .emptySelector [])
  | rest => readCompounds rest

/-- The offset of the first of the last `count` tokens, or the end of the text. -/
def offsetOfLast (text : String) (placed : List PlacedToken) (count : Nat) : Nat :=
  match placed.drop (placed.length - count) with
  | [] => text.utf8ByteSize
  | first :: _ => first.offset

def Stuck.located (text : String) (placed : List PlacedToken) (stuck : Stuck) : SelectorError :=
  let offset := offsetOfLast text placed stuck.left.length
  match stuck with
  | .malformed fault _ => .malformed text offset fault
  | .usesNamespace _ => .usesNamespace (.written text offset)

def SelectorList.parse (text : String) : Except SelectorError SelectorList :=
  match tokens text.toList with
  | .error (fault, offset) => .error (.malformed text offset fault)
  | .ok placed =>
    match readList (placed.map PlacedToken.token) with
    | .error stuck => .error (stuck.located text placed)
    | .ok events => .ok (.ofEvents events)

end TreeQuery
