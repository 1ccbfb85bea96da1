import TreeQuery.Proofs.Selector.Halting
import TreeQuery.Proofs.Selector.Reparse

/-! Where in a text its syntax is said to be wrong.
The place is the end of the text or the start of a token. The tokens before it are those of the
beginning of an accepted text; with the token at the place no accepted text begins. -/
namespace TreeQuery

variable {text : String} {placed before after : List PlacedToken} {position : Nat}

theorem utf8ByteSize_ofList (text : List Char) :
    (String.ofList text).utf8ByteSize = byteCount text := by
  induction text with
  | nil => rfl
  | cons c text ih =>
    rw [← List.singleton_append, String.ofList_append, String.utf8ByteSize_append, ih,
      byteCount_append]
    simp

theorem utf8ByteSize_eq (text : String) : text.utf8ByteSize = byteCount text.toList := by
  rw [← utf8ByteSize_ofList, String.ofList_toList]

def tokensBefore (position : Nat) (placed : List PlacedToken) : List Token :=
  (placed.filter fun token => token.offset < position).map PlacedToken.token

/-- The tokens up to and including the one that starts at a position. -/
def tokensThrough (position : Nat) (placed : List PlacedToken) : List Token :=
  tokensBefore (position + 1) placed

/-- What makes a position the place where a text with these tokens goes wrong. -/
structure GoesWrongAt (text : String) (placed : List PlacedToken) (position : Nat) : Prop where
  place : position = text.utf8ByteSize ∨ ∃ token ∈ placed, token.offset = position
  boundary : ∃ front back, text = front ++ back ∧ front.utf8ByteSize = position
  viable : ∃ good list ts, SelectorList.parse good = .ok list ∧ lexemes good.toList = some ts ∧
    tokensBefore position placed <+: ts
  refused : position < text.utf8ByteSize → ∀ good list ts, SelectorList.parse good = .ok list →
    lexemes good.toList = some ts → ¬tokensThrough position placed <+: ts

theorem tokensBefore_append (hb : ∀ token ∈ before, token.offset < position)
    (ha : ∀ token ∈ after, position ≤ token.offset) :
    tokensBefore position (before ++ after) = before.map PlacedToken.token := by
  have hfront : before.filter (fun token => token.offset < position) = before :=
    List.filter_eq_self.mpr fun token ht => decide_eq_true (hb token ht)
  have hback : after.filter (fun token => token.offset < position) = [] :=
    List.filter_eq_nil_iff.mpr fun token ht => by simpa using ha token ht
  rw [tokensBefore, List.filter_append, hfront, hback, List.append_nil]

theorem offsetOfLast_append (text : String) (before after : List PlacedToken) :
    offsetOfLast text (before ++ after) after.length =
      (after.head?.map PlacedToken.offset).getD text.utf8ByteSize := by
  rw [offsetOfLast, List.length_append, Nat.add_sub_cancel, List.drop_left]
  cases after <;> rfl

namespace Grammar.Halts

variable {fault : SyntaxFault} {used rest : List Token}
  (h : Halts readList (fun ts => ∃ events, Whole ts events) fault used rest)

include h

/-- A text of the tokens read, with the ending of the fault behind it, is accepted. -/
theorem exists_text {front : List Char} (hf : lexemes front = some used) :
    ∃ good list, SelectorList.parse good = .ok list ∧
      lexemes good.toList = some (used ++ fault.ending) := by
  obtain ⟨events, hw⟩ := h.ended
  have hgives : Gives front used fault.endingText := gives_of_lexemes hf (h.apart [])
  have hl : lexemes (String.ofList (front ++ fault.endingText)).toList =
      some (used ++ fault.ending) := by
    rw [String.toList_ofList, hgives, fault.lexemes_endingText]
    rfl
  exact ⟨_, _, parse_eq_ok_iff.mpr ⟨_, events, hl, hw, rfl⟩, hl⟩

theorem not_prefix {token : Token} (ht : token ∈ rest.head?) {good : String} {list : SelectorList}
    {ts : List Token} (hp : SelectorList.parse good = .ok list)
    (hl : lexemes good.toList = some ts) : ¬used ++ [token] <+: ts := by
  rintro ⟨other, rfl⟩
  obtain ⟨_, events, hl', hw, -⟩ := parse_eq_ok_iff.mp hp
  cases hl.symm.trans hl'
  obtain ⟨stuck, hs⟩ := h.refused token ht other
  rw [List.append_assoc, List.singleton_append] at hl hw
  have hread := (readList_iff (spaced_of_lexemes hl)).mpr hw
  cases hs.symm.trans hread

end Grammar.Halts

section Place

variable {fault : SyntaxFault} {rest : List Token}

theorem exists_stop_of_malformed {source : String} (ht : tokens text.toList = .ok placed)
    (h : SelectorList.parse text = .error (.malformed source position fault)) :
    ∃ rest, readList (placed.map PlacedToken.token) = .error (.malformed fault rest) ∧
      position = offsetOfLast text placed rest.length := by
  rw [SelectorList.parse, ht] at h
  dsimp only at h
  cases hr : readList (placed.map PlacedToken.token) with
  | ok events => rw [hr] at h; cases h
  | error stuck =>
    rw [hr] at h
    cases stuck with
    | usesNamespace left => cases h
    | malformed reason left =>
      cases h
      exact ⟨left, rfl, rfl⟩

theorem goesWrongAt_end (ht : tokens text.toList = .ok placed)
    (h : Grammar.Halts readList (fun ts => ∃ events, Grammar.Whole ts events) fault
      (placed.map PlacedToken.token) rest) : GoesWrongAt text placed text.utf8ByteSize := by
  have hbefore : tokensBefore text.utf8ByteSize (placed ++ []) = placed.map PlacedToken.token := by
    refine tokensBefore_append (fun token hm => ?_) nofun
    rw [utf8ByteSize_eq, ← Nat.zero_add (byteCount _)]
    exact ((offsets_of_tokensFrom ht).2 token hm).2
  rw [List.append_nil] at hbefore
  obtain ⟨good, list, hgood, hts⟩ := h.exists_text (lexemes_eq_some_iff.mpr ⟨placed, ht, rfl⟩)
  refine ⟨.inl rfl, ⟨text, "", (String.append_empty ..).symm, rfl⟩, ?_, fun hlt => ?_⟩
  · exact ⟨good, list, _, hgood, hts, hbefore ▸ List.prefix_append _ _⟩
  · exact absurd hlt (Nat.lt_irrefl _)

theorem goesWrongAt_token {first : PlacedToken}
    (ht : tokens text.toList = .ok (before ++ first :: after))
    (h : Grammar.Halts readList (fun ts => ∃ events, Grammar.Whole ts events) fault
      (before.map PlacedToken.token) (first.token :: rest)) :
    GoesWrongAt text (before ++ first :: after) first.offset := by
  obtain ⟨-, hlater, hcross⟩ := List.pairwise_append.mp (offsets_of_tokensFrom ht).1
  have hafter : ∀ token ∈ after, first.offset < token.offset :=
    fun _ hm => List.rel_of_pairwise_cons hlater hm
  have hbefore : tokensBefore first.offset (before ++ first :: after) =
      before.map PlacedToken.token := by
    refine tokensBefore_append (fun token hm => hcross token hm first List.mem_cons_self) ?_
    exact List.forall_mem_cons.mpr ⟨Nat.le_refl _, fun token hm => (hafter token hm).le⟩
  have hthrough : tokensThrough first.offset (before ++ first :: after) =
      before.map PlacedToken.token ++ [first.token] := by
    rw [List.append_cons, ← List.map_singleton (f := PlacedToken.token), ← List.map_append]
    refine tokensBefore_append (List.forall_mem_append.mpr ⟨fun token hm => ?_, ?_⟩) hafter
    · exact Nat.lt_succ_of_lt (hcross token hm first List.mem_cons_self)
    · exact List.forall_mem_singleton.mpr (Nat.lt_succ_self _)
  obtain ⟨front, back, hsplit, hfront, hsize⟩ := exists_cut_before ht
  obtain ⟨good, list, hgood, hts⟩ := h.exists_text (lexemes_eq_some_iff.mpr ⟨before, hfront, rfl⟩)
  refine ⟨.inr ⟨first, List.mem_append_right _ List.mem_cons_self, rfl⟩,
    ⟨.ofList front, .ofList back, ?_, ?_⟩, ?_, fun _ _ _ _ hother hl => ?_⟩
  · rw [← String.ofList_append, ← hsplit, String.ofList_toList]
  · rw [utf8ByteSize_ofList, hsize]
  · exact ⟨good, list, _, hgood, hts, hbefore ▸ List.prefix_append _ _⟩
  · rw [hthrough]
    exact h.not_prefix rfl hother hl

/-- A text with tokens that is malformed goes wrong at the position that the error says. -/
theorem goesWrongAt_of_malformed {source : String} (ht : tokens text.toList = .ok placed)
    (h : SelectorList.parse text = .error (.malformed source position fault)) :
    GoesWrongAt text placed position := by
  obtain ⟨rest, hr, hp⟩ := exists_stop_of_malformed ht h
  have hs := spaced_of_lexemes (lexemes_eq_some_iff.mpr ⟨placed, ht, rfl⟩)
  obtain ⟨used, hu, hhalts⟩ := Grammar.readList_halts hs hr
  obtain ⟨before, after, rfl, rfl, rfl⟩ := List.map_eq_append_iff.mp hu
  rw [List.length_map, offsetOfLast_append] at hp
  subst hp
  cases after with
  | nil =>
    rw [List.append_nil] at ht ⊢
    exact goesWrongAt_end ht hhalts
  | cons first after => exact goesWrongAt_token ht hhalts

end Place

/-- A closing bracket behind a star is what goes wrong. -/
theorem goesWrongAt_of_bracket :
    let placed : List PlacedToken := [⟨.star, 0⟩, ⟨.rightBracket, 1⟩]
    tokens "*]".toList = .ok placed ∧
      SelectorList.parse "*]" = .error (.malformed "*]" 1 .unexpectedCharacter) ∧
      GoesWrongAt "*]" placed 1 := by
  intro placed
  have ht : tokens "*]".toList = .ok placed := by
    have hstar : Token.read '*' [']'] = .ok ⟨.star, 1, [']']⟩ := rfl
    have hbracket : Token.read ']' [] = .ok ⟨.rightBracket, 1, []⟩ := rfl
    change tokensFrom 0 ['*', ']'] = _
    rw [tokensFrom_cons, hstar]
    dsimp only
    rw [tokensFrom_cons, hbracket]
    dsimp only
    rw [tokensFrom]
    rfl
  have hc : readCompound [.star, .rightBracket] = .ok ([.element "*"], [.rightBracket]) :=
    Grammar.readCompound_of_parts rfl .nil rfl
  have hr : readList (placed.map PlacedToken.token) =
      .error (.malformed .unexpectedCharacter [.rightBracket]) := by
    change readCompounds [.star, .rightBracket] = _
    rw [Grammar.readCompounds_eq, hc]
    rfl
  have h : SelectorList.parse "*]" = .error (.malformed "*]" 1 .unexpectedCharacter) := by
    rw [SelectorList.parse, ht]
    dsimp only
    rw [hr]
    rfl
  exact ⟨ht, h, goesWrongAt_of_malformed ht h⟩

end TreeQuery
