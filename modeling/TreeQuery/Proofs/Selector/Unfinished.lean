import TreeQuery.Proofs.Selector.Location

/-! Texts that are left unfinished.
A text can be gone through character by character with nothing in mind but backslashes and quotes.
It has tokens exactly if that ends outside of escapes and strings. Otherwise the fault lies at the
backslash that ends the text, or at the quote of the string that is still open there. -/
namespace TreeQuery

/-- What the characters up to some place make of the one behind it. -/
inductive ScanState where
  | plain
  | escaped
  | quoted (quote : Char)
  | quotedEscaped (quote : Char)
  deriving DecidableEq, Repr

namespace ScanState

/-- A backslash takes the next character for what it is. A quote opens a string only where none is
open, and a string is closed by the quote that opened it. -/
def next : ScanState → Char → ScanState
  | plain, c => if c = '\\' then escaped else if c = '"' ∨ c = '\'' then quoted c else plain
  | escaped, _ => plain
  | quoted quote, c =>
    if c = '\\' then quotedEscaped quote else if c = quote then plain else quoted quote
  | quotedEscaped quote, _ => quoted quote

def after (state : ScanState) (text : List Char) : ScanState := text.foldl next state

def isEscaped : ScanState → Bool
  | escaped | quotedEscaped _ => true
  | plain | quoted _ => false

/-- No beginning of the text leads back to plain. -/
def StaysOpen (state : ScanState) (text : List Char) : Prop :=
  ∀ part, part <+: text → state.after part ≠ plain

end ScanState

/-- The quote between two texts opens a string that the second of them does not close. -/
structure OpensString (front : List Char) (quote : Char) (back : List Char) : Prop where
  outside : ScanState.plain.after front = .plain
  isQuote : quote = '"' ∨ quote = '\''
  unclosed : (ScanState.quoted quote).StaysOpen back

/-- How a text ends too early: its fault, and the bytes before the character that it lies at. -/
inductive EndsEarly (text : List Char) : SyntaxFault → Nat → Prop where
  | escape {front} : text = front ++ ['\\'] → (ScanState.plain.after text).isEscaped = true →
      EndsEarly text .danglingEscape (byteCount front)
  | string {front quote back} : text = front ++ quote :: back → OpensString front quote back →
      (ScanState.plain.after text).isEscaped = false →
      EndsEarly text .unterminatedString (byteCount front)

variable {c quote : Char} {text taken : List Char} {fault : SyntaxFault} {offset position : Nat}
  {state : ScanState}

namespace ScanState

theorem after_append (state : ScanState) (front back : List Char) :
    state.after (front ++ back) = (state.after front).after back := List.foldl_append

theorem after_cons (state : ScanState) (c : Char) (text : List Char) :
    state.after (c :: text) = (state.next c).after text := rfl

theorem next_plain (he : c ≠ '\\') (hq : ¬(c = '"' ∨ c = '\'')) : plain.next c = plain := by
  rw [next, if_neg he, if_neg hq]

theorem next_of_class {holds : Char → Bool} (hn : ['\\', '"', '\''].any holds = false)
    (hc : holds c = true) : plain.next c = plain := by
  have hne : ∀ d ∈ ['\\', '"', '\''], c ≠ d := by
    rintro d hd rfl
    exact List.any_eq_false.mp hn c hd hc
  exact next_plain (hne _ (by simp)) (not_or.mpr ⟨hne _ (by simp), hne _ (by simp)⟩)

theorem next_nameChar (hc : isNameChar c = true) : plain.next c = plain :=
  next_of_class (by decide) hc

theorem next_blank (hc : isBlank c = true) : plain.next c = plain :=
  next_of_class (by decide) hc

theorem after_of_forall (h : ∀ c ∈ text, plain.next c = plain) : plain.after text = plain := by
  induction text with
  | nil => rfl
  | cons c text ih =>
    obtain ⟨hc, htext⟩ := List.forall_mem_cons.mp h
    rw [after_cons, hc, ih htext]

theorem ne_backslash_of_quote (hq : quote = '"' ∨ quote = '\'') : quote ≠ '\\' := by
  rintro rfl
  exact absurd hq (by decide)

theorem next_quote (hq : quote = '"' ∨ quote = '\'') : plain.next quote = quoted quote := by
  rw [next, if_neg (ne_backslash_of_quote hq), if_pos hq]

theorem eq_backslash_of_next (h : (state.next c).isEscaped = true) : c = '\\' := by
  by_contra hc
  cases state with
  | plain =>
    rw [next, if_neg hc] at h
    split at h <;> cases h
  | escaped => cases h
  | quoted quote =>
    rw [next, if_neg hc] at h
    split at h <;> cases h
  | quotedEscaped quote => cases h

theorem exists_backslash (h : (plain.after text).isEscaped = true) :
    ∃ front, text = front ++ ['\\'] := by
  rcases List.eq_nil_or_concat' text with rfl | ⟨front, c, rfl⟩
  · cases h
  · rw [after_append] at h
    exact ⟨front, by rw [eq_backslash_of_next h]⟩

theorem StaysOpen.nil (h : state ≠ plain) : state.StaysOpen [] := by
  intro part hp
  rw [List.prefix_nil.mp hp]
  exact h

theorem StaysOpen.cons (h : state ≠ plain) (hr : (state.next c).StaysOpen text) :
    state.StaysOpen (c :: text) := by
  intro part hp
  rcases List.prefix_cons_iff.mp hp with rfl | ⟨rest, rfl, hrest⟩
  · exact h
  · exact hr rest hrest

section Read

theorem after_readName {front : Front (List Char)} (h : readName text = .ok front) :
    plain.after text = plain.after front.rest := by
  fun_induction readName text generalizing front with
  | case1 => cases h; rfl
  | case2 => cases h
  | case3 d text ih =>
    obtain ⟨inner, hi, rfl⟩ := map_eq_ok_iff.mp h
    have hrest := ih hi
    exact hrest
  | case4 c text _ hc ih =>
    obtain ⟨inner, hi, rfl⟩ := map_eq_ok_iff.mp h
    have hrest := ih hi
    rw [after_cons, next_nameChar hc]
    exact hrest
  | case5 => cases h; rfl

theorem after_readName_error (h : readName text = .error fault) :
    fault = .danglingEscape ∧ (plain.after text).isEscaped = true := by
  fun_induction readName text with
  | case1 => cases h
  | case2 => cases h; exact ⟨rfl, rfl⟩
  | case3 d text ih => exact ih (map_eq_error_iff.mp h)
  | case4 c text _ hc ih =>
    rw [after_cons, next_nameChar hc]
    exact ih (map_eq_error_iff.mp h)
  | case5 => cases h

theorem after_readQuoted (hq : quote ≠ '\\') {front : Front (List Char)}
    (h : readQuoted quote text = .ok front) :
    (quoted quote).after text = plain.after front.rest := by
  fun_induction readQuoted quote text generalizing front with
  | case1 => cases h
  | case2 text =>
    -- the closing quote is looked for before the backslash here, and behind it by the scan
    cases h
    rw [after_cons, next, if_neg hq, if_pos rfl]
  | case3 => cases h
  | case4 d text _ ih =>
    obtain ⟨inner, hi, rfl⟩ := map_eq_ok_iff.mp h
    have hrest := ih hi
    exact hrest
  | case5 c text hc he ih =>
    obtain ⟨inner, hi, rfl⟩ := map_eq_ok_iff.mp h
    have hrest := ih hi
    rw [after_cons, next, if_neg he, if_neg hc]
    exact hrest

theorem after_readQuoted_error (h : readQuoted quote text = .error fault) :
    (quoted quote).StaysOpen text ∧
      (fault = .danglingEscape ∧ ((quoted quote).after text).isEscaped = true ∨
        fault = .unterminatedString ∧ ((quoted quote).after text).isEscaped = false) := by
  have hquoted : quoted quote ≠ plain := by simp
  have hescaped : quotedEscaped quote ≠ plain := by simp
  fun_induction readQuoted quote text with
  | case1 =>
    cases h
    exact ⟨.nil hquoted, .inr ⟨rfl, rfl⟩⟩
  | case2 => cases h
  | case3 =>
    cases h
    exact ⟨.cons hquoted (.nil hescaped), .inl ⟨rfl, rfl⟩⟩
  | case4 d text _ ih =>
    obtain ⟨hopen, hfault⟩ := ih (map_eq_error_iff.mp h)
    exact ⟨.cons hquoted (.cons hescaped hopen), hfault⟩
  | case5 c text hc he ih =>
    have hnext : (quoted quote).next c = quoted quote := by rw [next, if_neg he, if_neg hc]
    obtain ⟨hopen, hfault⟩ := ih (map_eq_error_iff.mp h)
    rw [after_cons, hnext]
    exact ⟨.cons hquoted (hnext.symm ▸ hopen), hfault⟩

theorem after_readSymbol (hc : plain.next c = plain) (text : List Char) :
    plain.after (c :: text) = plain.after (Token.readSymbol c text).rest := by
  rw [after_cons, hc]
  fun_cases Token.readSymbol c text with
  | case1 => rfl
  | case2 d text token hp =>
    have hd : plain.next d = plain := by
      revert hp
      fun_cases Token.ofPair c d <;> rintro ⟨⟩ <;> rfl
    rw [after_cons, hd]
  | case3 => rfl

/-- A token leads back to where it started. -/
theorem after_read {front : Front Token} (h : Token.read c text = .ok front) :
    plain.after (c :: text) = plain.after front.rest := by
  by_cases hb : isBlank c = true
  · rw [read_blank hb] at h
    cases h
    have hblank := List.all_eq_true.mp (List.all_takeWhile (p := isBlank) (l := text))
    have htaken : plain.after (text.takeWhile isBlank) = plain :=
      after_of_forall fun d hd => next_blank (hblank d hd)
    calc plain.after (c :: text)
      _ = plain.after text := by rw [after_cons, next_blank hb]
      _ = plain.after (text.takeWhile isBlank ++ text.dropWhile isBlank) := by
          rw [List.takeWhile_append_dropWhile]
      _ = plain.after (text.dropWhile isBlank) := by rw [after_append, htaken]
  rw [Token.read, if_neg hb] at h
  split at h
  · rename_i hq
    obtain ⟨inner, hi, rfl⟩ := map_eq_ok_iff.mp h
    rw [after_cons, next_quote hq]
    exact after_readQuoted (ne_backslash_of_quote hq) hi
  · rename_i hq
    split at h
    · obtain ⟨inner, hi, rfl⟩ := map_eq_ok_iff.mp h
      exact after_readName hi
    · rename_i hc
      cases h
      exact after_readSymbol (next_plain (fun he => hc (.inl he)) hq) text

end Read

end ScanState

section EndsEarly

open ScanState

theorem EndsEarly.ne_plain (h : EndsEarly text fault position) : plain.after text ≠ plain := by
  intro hp
  cases h with
  | escape _ he =>
    rw [hp] at he
    cases he
  | string ht hs _ =>
    refine hs.unclosed _ (List.prefix_refl _) ?_
    rw [ht, after_append, hs.outside, after_cons, next_quote hs.isQuote] at hp
    exact hp

theorem EndsEarly.behind (hp : plain.after taken = plain) (h : EndsEarly text fault position) :
    EndsEarly (taken ++ text) fault (byteCount taken + position) := by
  have hafter : plain.after (taken ++ text) = plain.after text := by rw [after_append, hp]
  cases h with
  | @escape front ht he =>
    rw [← byteCount_append]
    refine .escape ?_ (hafter ▸ he)
    rw [ht, List.append_assoc]
  | @string front quote back ht hs he =>
    rw [← byteCount_append]
    refine .string ?_ ⟨?_, hs.isQuote, hs.unclosed⟩ (hafter ▸ he)
    · rw [ht, List.append_assoc]
    · rw [after_append, hp, hs.outside]

theorem endsEarly_of_escaped (h : (plain.after text).isEscaped = true) :
    EndsEarly text .danglingEscape (faultOffset 0 text .danglingEscape) := by
  obtain ⟨front, rfl⟩ := exists_backslash h
  have hsize : faultOffset 0 (front ++ ['\\']) .danglingEscape = byteCount front := by
    rw [faultOffset, byteCount_append, Nat.zero_add]
    rfl
  rw [hsize]
  exact .escape rfl h

theorem endsEarly_of_read (h : Token.read c text = .error fault) :
    EndsEarly (c :: text) fault (faultOffset 0 (c :: text) fault) := by
  by_cases hb : isBlank c = true
  · rw [read_blank hb] at h
    cases h
  rw [Token.read, if_neg hb] at h
  split at h
  · rename_i hq
    have hopens : plain.after (c :: text) = (quoted c).after text := by
      rw [after_cons, next_quote hq]
    obtain ⟨hopen, ⟨rfl, he⟩ | ⟨rfl, he⟩⟩ := after_readQuoted_error (map_eq_error_iff.mp h)
    · exact endsEarly_of_escaped (hopens ▸ he)
    · have hopening : OpensString [] c text := ⟨rfl, hq, hopen⟩
      exact .string rfl hopening (hopens ▸ he)
  · split at h
    · obtain ⟨rfl, he⟩ := after_readName_error (map_eq_error_iff.mp h)
      exact endsEarly_of_escaped he
    · cases h

theorem exists_taken {front : Front Token} (h : Token.read c text = .ok front) :
    ∃ taken, c :: text = taken ++ front.rest ∧ front.size = byteCount taken ∧
      plain.after taken = plain := by
  obtain ⟨taken, rfl, hsize, -, hother⟩ := read_local h
  refine ⟨c :: taken, rfl, hsize, ?_⟩
  have hread := hother [] Token.stopsAt_nil
  rw [List.append_nil] at hread
  exact after_read hread

theorem plain_of_tokensFrom {placed : List PlacedToken}
    (h : tokensFrom offset text = .ok placed) : plain.after text = plain := by
  fun_induction tokensFrom offset text generalizing placed with
  | case1 => rfl
  | case2 => cases h
  | case3 offset c text front hr ih =>
    obtain ⟨rest, hrest, -⟩ := map_eq_ok_iff.mp h
    exact (after_read hr).trans (ih hrest)

theorem endsEarly_of_tokensFrom (h : tokensFrom offset text = .error (fault, position)) :
    ∃ bytes, position = offset + bytes ∧ EndsEarly text fault bytes := by
  fun_induction tokensFrom offset text with
  | case1 => cases h
  | case2 offset c text fault hr =>
    cases h
    refine ⟨_, ?_, endsEarly_of_read hr⟩
    cases fault <;> simp [faultOffset]
  | case3 offset c text front hr ih =>
    obtain ⟨bytes, hposition, he⟩ := ih (map_eq_error_iff.mp h)
    obtain ⟨taken, ht, hsize, hplain⟩ := exists_taken hr
    rw [ht, hposition, hsize, Nat.add_assoc]
    exact ⟨_, rfl, he.behind hplain⟩

end EndsEarly

/-- A text cannot be cut into tokens exactly if the scan of it does not end in the plain state. Where
it ends behind an escaping backslash, the text is said to be wrong at this backslash, its last one;
else at the quote that opened the string which is not closed. -/
theorem tokens_of_unfinished (text : String) :
    ((∃ fault position, tokens text.toList = .error (fault, position)) ↔
        ScanState.plain.after text.toList ≠ .plain) ∧
      ∀ fault position, tokens text.toList = .error (fault, position) →
        SelectorList.parse text = .error (.malformed text position fault) ∧
          ((ScanState.plain.after text.toList).isEscaped = true →
            fault.message = "dangling escape" ∧
              ∃ front, text = front ++ "\\" ∧ front.utf8ByteSize = position) ∧
          ((ScanState.plain.after text.toList).isEscaped = false →
            fault.message = "unterminated string" ∧
              ∃ front quote back, text = front ++ String.singleton quote ++ back ∧
                front.utf8ByteSize = position ∧ OpensString front.toList quote back.toList) := by
  have hearly : ∀ {fault position}, tokens text.toList = .error (fault, position) →
      EndsEarly text.toList fault position := by
    intro fault position h
    obtain ⟨bytes, rfl, he⟩ := endsEarly_of_tokensFrom h
    exact (Nat.zero_add bytes).symm ▸ he
  refine ⟨⟨fun ⟨fault, position, h⟩ => (hearly h).ne_plain, fun hne => ?_⟩, ?_⟩
  · cases h : tokens text.toList with
    | error stop => exact ⟨stop.1, stop.2, rfl⟩
    | ok placed => exact absurd (plain_of_tokensFrom h) hne
  · intro fault position h
    refine ⟨by rw [SelectorList.parse, h], ?_⟩
    cases hearly h with
    | @escape front ht he =>
      refine ⟨fun _ => ⟨rfl, .ofList front, ?_, utf8ByteSize_ofList front⟩, fun hf => ?_⟩
      · rw [← String.ofList_toList (s := text), ht, String.ofList_append]
      · rw [he] at hf
        cases hf
    | @string front quote back ht hs he =>
      refine ⟨fun ht => ?_, fun _ => ⟨rfl, .ofList front, quote, .ofList back, ?_,
        utf8ByteSize_ofList front, ?_⟩⟩
      · rw [he] at ht
        cases ht
      · rw [← String.ofList_toList (s := text), ht, List.append_cons, String.ofList_append,
          String.ofList_append]
        rfl
      · rw [String.toList_ofList, String.toList_ofList]
        exact hs

/-- A quote that is escaped outside of a string opens none, and one that stands inside a string of
the other quote does not close it. -/
theorem tokens_of_unfinished_string :
    tokens "é\\\"'\"".toList = .error (.unterminatedString, 4) ∧
      ScanState.plain.after "é\\\"'\"".toList = .quoted '\'' ∧
      ∃ front quote back, "é\\\"'\"" = front ++ String.singleton quote ++ back ∧
        front.utf8ByteSize = 4 ∧ OpensString front.toList quote back.toList := by
  have ht : tokens "é\\\"'\"".toList = .error (.unterminatedString, 4) := by
    have hname : Token.read 'é' ['\\', '"', '\'', '"'] =
      .ok ⟨.ident "é\"", 4, ['\'', '"']⟩ := rfl
    have hquoted : Token.read '\'' ['"'] = .error .unterminatedString := rfl
    change tokensFrom 0 ['é', '\\', '"', '\'', '"'] = _
    simp only [tokensFrom_cons, hname, hquoted]
    rfl
  exact ⟨ht, rfl, (((tokens_of_unfinished _).2 _ _ ht).2.2 rfl).2⟩

end TreeQuery
