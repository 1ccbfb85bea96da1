import TreeQuery.Proofs.Selector.Joined
import TreeQuery.Proofs.Selector.Location

/-! Reading tokens keeps nothing in mind from one token to the next.
A text can be cut before any of its tokens: the tokens of the front are those before the cut, and the
tokens of the back are those behind it, counted from the cut. Where a token ends, one of the same
sort cannot begin. -/
namespace TreeQuery

/-- The token as it is placed when the first bytes of the text are left out. -/
def PlacedToken.ahead (placed : PlacedToken) (bytes : Nat) : PlacedToken :=
  { placed with offset := placed.offset - bytes }

def Token.isName : Token → Bool
  | .ident _ | .numeral _ => true
  | _ => false

/-- Two tokens that would have been read as one, had they stood side by side. -/
inductive Token.Merges : Token → Token → Prop where
  | blanks : Merges .blank .blank
  | names {front back} : front.isName = true → back.isName = true → Merges front back

variable {c : Char} {text : List Char} {ts : List Token} {placed : List PlacedToken} {offset : Nat}

section Neighbours

theorem not_isName_ofSymbol (c : Char) : (Token.ofSymbol c).isName = false := by
  fun_cases Token.ofSymbol c <;> rfl

theorem not_isName_ofPair {d : Char} {token : Token} (h : Token.ofPair c d = some token) :
    token.isName = false := by
  revert h
  fun_cases Token.ofPair c d <;> rintro ⟨⟩ <;> rfl

theorem read_isName {front : Front Token} (h : Token.read c text = .ok front)
    (hn : front.content.isName = true) : c = '\\' ∨ isNameChar c = true := by
  by_contra hc
  rw [Token.read] at h
  split at h
  · cases h
    cases hn
  · split at h
    · obtain ⟨inner, -, rfl⟩ := map_eq_ok_iff.mp h
      cases hn
    · cases h
      revert hn
      fun_cases Token.readSymbol c text with
      | case1 => simp [not_isName_ofSymbol]
      | case2 d text token hp => simp [not_isName_ofPair hp]
      | case3 => simp [not_isName_ofSymbol]

/-- The first character of a token that could have gone on with the one before would have been read
as a part of it. -/
theorem Token.Merges.runsOn {front : Token} {back : Front Token} (h : front.Merges back.content)
    (hr : Token.read c text = .ok back) : front.runsOn c = true := by
  generalize hb : back.content = token at h
  cases h with
  | blanks => exact read_eq_blank hr hb
  | @names front token hf ht =>
    have hc := read_isName hr (hb ▸ ht)
    cases front with
    | ident _ => simpa [Token.runsOn] using hc
    | numeral _ => simpa [Token.runsOn] using hc
    | _ => cases hf

theorem chain_of_lexemes (h : lexemes text = some ts) :
    ts.IsChain fun front back => ¬ front.Merges back := by
  refine lexemes_induct (P := fun _ ts => ts.IsChain fun front back => ¬ front.Merges back)
    .nil ?_ h
  intro c text front ts hr hl ih
  refine List.isChain_cons.mpr ⟨fun back hb hm => ?_, ih⟩
  obtain ⟨us, rfl⟩ := List.head?_eq_some_iff.mp hb
  obtain ⟨-, -, -, hstops, -⟩ := read_local hr
  cases hrest : front.rest with
  | nil =>
    rw [hrest, lexemes_nil] at hl
    cases hl
  | cons d rest =>
    rw [hrest] at hl hstops
    obtain ⟨next, hn, rfl, -⟩ := read_of_lexemes hl
    exact absurd (hm.runsOn hn) (Bool.eq_false_iff.mp (hstops d rfl))

end Neighbours

section Shift

theorem tokensFrom_ahead {bytes : Nat} (hb : bytes ≤ offset)
    (h : tokensFrom offset text = .ok placed) :
    tokensFrom (offset - bytes) text = .ok (placed.map (·.ahead bytes)) := by
  fun_induction tokensFrom offset text generalizing placed with
  | case1 =>
    cases h
    rw [tokensFrom]
    rfl
  | case2 => cases h
  | case3 offset c text front hr ih =>
    obtain ⟨rest, hrest, rfl⟩ := map_eq_ok_iff.mp h
    have hoffset : offset - bytes + front.size = offset + front.size - bytes :=
      (Nat.sub_add_comm hb).symm
    rw [tokensFrom_cons, hr]
    dsimp only
    rw [hoffset, ih (Nat.le_add_right_of_le hb) hrest]
    rfl

theorem offset_of_tokensFrom {first : PlacedToken} {rest : List PlacedToken}
    (h : tokensFrom offset text = .ok (first :: rest)) : first.offset = offset := by
  cases text with
  | nil =>
    rw [tokensFrom] at h
    cases h
  | cons c text =>
    rw [tokensFrom_cons] at h
    cases hr : Token.read c text with
    | error fault => rw [hr] at h; cases h
    | ok front =>
      rw [hr] at h
      obtain ⟨_, -, he⟩ := map_eq_ok_iff.mp h
      cases he
      rfl

end Shift

/-- The tokens of a text start at its beginning and one behind the other. A text can be cut before
each of them, which changes no token on either side; and no two neighbours are both blank or both
names. -/
theorem cut_before_token {text : String} {placed : List PlacedToken}
    (h : tokens text.toList = .ok placed) :
    (text ≠ "" → ∃ first rest, placed = first :: rest ∧ first.offset = 0) ∧
      placed.Pairwise (fun front back => front.offset < back.offset) ∧
      (∀ before token after, placed = before ++ token :: after → ∃ front back : String,
        text = front ++ back ∧ front.utf8ByteSize = token.offset ∧
          tokens front.toList = .ok before ∧
          tokens back.toList = .ok ((token :: after).map (·.ahead token.offset))) ∧
      (placed.map PlacedToken.token).IsChain fun front back => ¬ front.Merges back := by
  refine ⟨fun hne => ?_, (offsets_of_tokensFrom h).1, ?_, ?_⟩
  · cases placed with
    | nil => exact absurd (String.toList_eq_nil_iff.mp (eq_nil_of_tokensFrom h)) hne
    | cons first rest => exact ⟨first, rest, rfl, offset_of_tokensFrom h⟩
  · rintro before token after rfl
    obtain ⟨front, back, hsplit, hfront, hback, -⟩ := exists_cut h
    have hoffset : token.offset = byteCount front :=
      (offset_of_tokensFrom hback).trans (Nat.zero_add _)
    rw [Nat.zero_add, ← hoffset] at hback
    refine ⟨.ofList front, .ofList back, ?_, ?_, ?_, ?_⟩
    · rw [← String.ofList_append, ← hsplit, String.ofList_toList]
    · rw [utf8ByteSize_ofList, hoffset]
    · rw [String.toList_ofList]
      exact hfront
    · rw [String.toList_ofList, tokens, ← Nat.sub_self token.offset]
      exact tokensFrom_ahead (Nat.le_refl _) hback
  · exact chain_of_lexemes (lexemes_eq_some_iff.mpr ⟨placed, h, rfl⟩)

/-- The backslash of an escape and the closing quote are cut off with what they belong to. -/
theorem cut_before_token_of_escape :
    let placed : List PlacedToken :=
      [⟨.ident "é.", 0⟩, ⟨.blank, 4⟩, ⟨.quoted " ", 5⟩, ⟨.doubleColon, 8⟩]
    tokens "é\\. ' '::".toList = .ok placed ∧
      ∃ front back : String, "é\\. ' '::" = front ++ back ∧ front.utf8ByteSize = 5 ∧
        tokens front.toList = .ok [⟨.ident "é.", 0⟩, ⟨.blank, 4⟩] ∧
        tokens back.toList = .ok [⟨.quoted " ", 0⟩, ⟨.doubleColon, 3⟩] := by
  intro placed
  have ht : tokens "é\\. ' '::".toList = .ok placed := by
    have hname : Token.read 'é' ['\\', '.', ' ', '\'', ' ', '\'', ':', ':'] =
      .ok ⟨.ident "é.", 4, [' ', '\'', ' ', '\'', ':', ':']⟩ := rfl
    have hblank : Token.read ' ' ['\'', ' ', '\'', ':', ':'] =
      .ok ⟨.blank, 1, ['\'', ' ', '\'', ':', ':']⟩ := rfl
    have hquoted : Token.read '\'' [' ', '\'', ':', ':'] = .ok ⟨.quoted " ", 3, [':', ':']⟩ := rfl
    have hpair : Token.read ':' [':'] = .ok ⟨.doubleColon, 2, []⟩ := rfl
    change tokensFrom 0 ['é', '\\', '.', ' ', '\'', ' ', '\'', ':', ':'] = _
    simp only [tokensFrom_cons, hname, hblank, hquoted, hpair]
    rw [tokensFrom]
    rfl
  exact ⟨ht, (cut_before_token ht).2.2.1 [⟨.ident "é.", 0⟩, ⟨.blank, 4⟩] ⟨.quoted " ", 5⟩
    [⟨.doubleColon, 8⟩] rfl⟩

end TreeQuery
