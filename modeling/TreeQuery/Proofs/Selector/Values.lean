import TreeQuery.Selector.Attribute

/-! What the operators of attribute selectors say of the two texts they compare.
Each operator but `present` asks how the wanted text stands in the actual one: as the whole of it,
somewhere in it, at an end of it, or between separators. That a shorter value is refused before the
texts are looked at, and an empty wanted one by all operators but `=`, adds no condition. -/
namespace TreeQuery

section Split

variable {α : Type} {separator : α → Bool} {piece list gathered : List α}

/-- A list stands in another between separators, and has none in it. -/
def PieceOf (separator : α → Bool) (piece list : List α) : Prop :=
  (∀ a ∈ piece, separator a = false) ∧ ∃ front back, list = front ++ piece ++ back ∧
    (∀ a ∈ front.getLast?, separator a = true) ∧ ∀ a ∈ back.head?, separator a = true

theorem pieceOf_of_mem_splitOnPPrepend (hg : ∀ a ∈ gathered, separator a = false)
    (h : piece ∈ list.splitOnPPrepend separator gathered) :
    PieceOf separator piece (gathered.reverse ++ list) := by
  induction list generalizing gathered with
  | nil =>
    have hp : piece = gathered.reverse := by simpa using h
    subst hp
    exact ⟨by simpa using hg, [], [], by simp⟩
  | cons a list ih =>
    cases ha : separator a with
    | true =>
      rw [List.splitOnPPrepend_cons_pos ha] at h
      rcases List.mem_cons.mp h with rfl | h
      · exact ⟨by simpa using hg, [], a :: list, by simpa using ha⟩
      · have hnone : ∀ b ∈ ([] : List α), separator b = false := nofun
        obtain ⟨hp, front, back, hl, hfront, hback⟩ := ih hnone h
        refine ⟨hp, gathered.reverse ++ a :: front, back, ?_, ?_, hback⟩
        · simpa using hl
        · cases front with
          | nil => simpa using ha
          | cons first front => simpa using hfront
    | false =>
      rw [List.splitOnPPrepend_cons_neg ha] at h
      simpa using ih (List.forall_mem_cons.mpr ⟨ha, hg⟩) h

theorem mem_splitOnP_append (hp : ∀ a ∈ piece, separator a = false)
    (hback : ∀ a ∈ list.head?, separator a = true) :
    piece ∈ (piece ++ list).splitOnP separator := by
  cases list with
  | nil =>
    rw [List.append_nil, List.splitOnP_eq_singleton hp]
    exact List.mem_singleton_self piece
  | cons a list =>
    rw [List.splitOnP_append_cons_of_forall_mem hp a (hback a rfl)]
    exact List.mem_cons_self

/-- Splitting at separators finds exactly the pieces between them. -/
theorem mem_splitOnP_iff : piece ∈ list.splitOnP separator ↔ PieceOf separator piece list := by
  constructor
  · intro h
    exact pieceOf_of_mem_splitOnPPrepend (fun _ hm => absurd hm List.not_mem_nil) h
  · rintro ⟨hp, front, back, rfl, hfront, hback⟩
    have hm := mem_splitOnP_append hp hback
    rw [List.append_assoc]
    rcases List.eq_nil_or_concat front with rfl | ⟨front, a, rfl⟩
    · exact hm
    · have ha : separator a = true := hfront a (by simp)
      rw [List.concat_eq_append, List.append_assoc, List.singleton_append,
        List.splitOnP_append_cons front _ ha]
      exact List.mem_append_right _ hm

end Split

theorem holdsWithin_iff {part text : List Char} :
    holdsWithin part text = true ↔ part <:+: text := by
  induction text with
  | nil => simp [holdsWithin]
  | cons c text ih =>
    rw [holdsWithin, Bool.or_eq_true, ih, List.isPrefixOf_iff_prefix, List.infix_cons_iff]

/-- How an operator wants the wanted text to stand in the actual one. Only `=` may want the empty
text. -/
def AttributeOperator.Relates (wanted actual : String) : AttributeOperator → Prop
  | .present => True
  | .equals => wanted = actual
  | .word => wanted ≠ "" ∧ PieceOf isBlank wanted.toList actual.toList
  | .segment => wanted ≠ "" ∧ PieceOf (· == '-') wanted.toList actual.toList
  | .contains => wanted ≠ "" ∧ ∃ front back, actual = front ++ wanted ++ back
  | .startsWith => wanted ≠ "" ∧ ∃ back, actual = wanted ++ back
  | .endsWith => wanted ≠ "" ∧ ∃ front, actual = front ++ wanted

section Texts

variable {wanted actual : String} {operator : AttributeOperator}

theorem infix_iff :
    wanted.toList <:+: actual.toList ↔ ∃ front back, actual = front ++ wanted ++ back := by
  constructor
  · rintro ⟨front, back, h⟩
    refine ⟨.ofList front, .ofList back, String.toList_inj.mp ?_⟩
    simp [← h]
  · rintro ⟨front, back, rfl⟩
    exact ⟨front.toList, back.toList, by simp⟩

theorem prefix_iff : wanted.toList <+: actual.toList ↔ ∃ back, actual = wanted ++ back := by
  constructor
  · rintro ⟨back, h⟩
    refine ⟨.ofList back, String.toList_inj.mp ?_⟩
    simp [← h]
  · rintro ⟨back, rfl⟩
    exact ⟨back.toList, by simp⟩

theorem suffix_iff : wanted.toList <:+ actual.toList ↔ ∃ front, actual = front ++ wanted := by
  constructor
  · rintro ⟨front, h⟩
    refine ⟨.ofList front, String.toList_inj.mp ?_⟩
    simp [← h]
  · rintro ⟨front, rfl⟩
    exact ⟨front.toList, by simp⟩

theorem mem_classWords_iff :
    wanted ∈ classWords actual ↔ wanted ≠ "" ∧ PieceOf isBlank wanted.toList actual.toList := by
  rw [classWords, words, ← mem_splitOnP_iff, List.mem_map]
  constructor
  · rintro ⟨word, hw, rfl⟩
    obtain ⟨hm, hne⟩ := List.mem_filter.mp hw
    simpa [and_comm] using And.intro hm hne
  · rintro ⟨hne, hm⟩
    refine ⟨wanted.toList, List.mem_filter.mpr ⟨hm, ?_⟩, String.ofList_toList⟩
    simpa using hne

namespace AttributeOperator

/-- Whatever the operator, the wanted text is a part of the actual one, and so no longer. -/
theorem Relates.size_le (h : operator.Relates wanted actual) (hp : operator ≠ .present) :
    wanted.utf8ByteSize ≤ actual.utf8ByteSize := by
  have hpart : wanted.toList <:+: actual.toList := by
    cases operator with
    | present => exact absurd rfl hp
    | equals => exact (show wanted = actual from h) ▸ List.infix_rfl
    | word | segment =>
      obtain ⟨-, -, front, back, ha, -⟩ := h
      exact ⟨front, back, ha.symm⟩
    | contains => exact infix_iff.mpr h.2
    | startsWith => exact (prefix_iff.mpr h.2).isInfix
    | endsWith => exact (suffix_iff.mpr h.2).isInfix
  obtain ⟨front, back, rfl⟩ := infix_iff.mp hpart
  simp only [String.utf8ByteSize_append]
  omega

theorem accepts_iff_relates (hp : operator ≠ .present) :
    operator.accepts wanted actual = true ↔ operator.Relates wanted actual := by
  unfold accepts
  by_cases hs : actual.utf8ByteSize < wanted.utf8ByteSize
  · rw [if_pos hs]
    refine ⟨nofun, fun h => ?_⟩
    have hle := h.size_le hp
    omega
  · rw [if_neg hs]
    cases operator with
    | present => exact absurd rfl hp
    | equals => simp [Relates]
    | word => simp [Relates, mem_classWords_iff]
    | segment => simp [Relates, ← mem_splitOnP_iff, List.splitOn_eq_splitOnP]
    | contains => simp [Relates, holdsWithin_iff, infix_iff]
    | startsWith => simp [Relates, prefix_iff]
    | endsWith => simp [Relates, suffix_iff]

end AttributeOperator

theorem AttributeSelector.holds_some {test : AttributeSelector} (hp : test.operator ≠ .present) :
    test.holds (some actual) =
      test.value.elim false fun wanted => test.operator.accepts wanted actual := by
  obtain ⟨name, ns, operator, value⟩ := test
  cases operator with
  | present => exact absurd rfl hp
  | equals | word | segment | contains | startsWith | endsWith => cases value <;> rfl

/-- The operator of an attribute selector accepts what it says, and the selector asks for no more: an
absent attribute never satisfies it, a present one satisfies `present` always, and any other
operator only with a value to compare. -/
theorem AttributeSelector.holds_iff_relates (test : AttributeSelector) (value? : Option String) :
    (test.operator ≠ .present → ∀ wanted actual,
      test.operator.accepts wanted actual = true ↔ test.operator.Relates wanted actual) ∧
    (test.holds value? = true ↔ ∃ actual, value? = some actual ∧ (test.operator = .present ∨
      ∃ wanted, test.value = some wanted ∧ test.operator.Relates wanted actual)) := by
  refine ⟨fun hp _ _ => AttributeOperator.accepts_iff_relates hp, ?_⟩
  cases value? with
  | none => simp [holds]
  | some actual =>
    by_cases hp : test.operator = .present
    · simp [holds, hp]
    · rw [holds_some hp]
      cases test.value with
      | none => simp [hp]
      | some wanted => simp [hp, AttributeOperator.accepts_iff_relates hp]

end Texts

end TreeQuery
