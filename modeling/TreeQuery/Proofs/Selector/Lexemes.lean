import Mathlib.Algebra.GroupWithZero.Nat
import Mathlib.Data.List.Chain
import TreeQuery.Selector.Printer
import TreeQuery.Selector.Scan

/-! The tokens of a text without their offsets.
Each piece of text gives its tokens whatever stands behind it, as long as that does not run on.
A blank character beyond ASCII is a name character too, but no name starts with one. -/
namespace TreeQuery

def lexemes (text : List Char) : Option (List Token) :=
  (tokens text).toOption.map (List.map PlacedToken.token)

variable {c d : Char} {text name : List Char} {ts : List Token}

theorem lexemes_eq_some_iff :
    lexemes text = some ts ↔
      ∃ placed, tokens text = .ok placed ∧ placed.map PlacedToken.token = ts := by
  rw [lexemes]
  cases tokens text <;> simp [Except.toOption]

theorem tokensFrom_cons (offset : Nat) (c : Char) (text : List Char) :
    tokensFrom offset (c :: text) = match Token.read c text with
      | .error fault => .error (fault, faultOffset offset (c :: text) fault)
      | .ok front =>
        (tokensFrom (offset + front.size) front.rest).map (⟨front.content, offset⟩ :: ·) := by
  rw [tokensFrom]
  split <;> simp_all

theorem toOption_tokensFrom (offset : Nat) (text : List Char) :
    (tokensFrom offset text).toOption.map (List.map PlacedToken.token) = lexemes text := by
  unfold lexemes tokens
  generalize 0 = other
  fun_induction tokensFrom offset text generalizing other with
  | case1 => rw [tokensFrom]
  | case2 offset c text fault h => rw [tokensFrom_cons, h]; rfl
  | case3 offset c text front h ih =>
    rw [tokensFrom_cons, h]
    have hrest := ih (other + front.size)
    cases hf : tokensFrom (offset + front.size) front.rest <;>
      cases ho : tokensFrom (other + front.size) front.rest <;>
      rw [hf, ho] at hrest <;> simp_all [Except.map, Except.toOption]

@[simp] theorem lexemes_nil : lexemes [] = some [] := by
  rw [lexemes, tokens, tokensFrom]
  rfl

theorem lexemes_cons (c : Char) (text : List Char) :
    lexemes (c :: text) = match Token.read c text with
      | .error _ => none
      | .ok front => (lexemes front.rest).map (front.content :: ·) := by
  rw [lexemes, tokens, tokensFrom_cons]
  cases Token.read c text with
  | error fault => rfl
  | ok front =>
    dsimp only
    rw [← toOption_tokensFrom (0 + front.size) front.rest]
    cases tokensFrom (0 + front.size) front.rest <;> rfl

theorem lexemes_of_read {front : Front Token} (h : Token.read c text = .ok front) :
    lexemes (c :: text) = (lexemes front.rest).map (front.content :: ·) := by
  rw [lexemes_cons, h]

theorem lexemes_induct {P : List Char → List Token → Prop} (nil : P [] [])
    (cons : ∀ {c text front ts}, Token.read c text = .ok front → lexemes front.rest = some ts →
      P front.rest ts → P (c :: text) (front.content :: ts))
    (h : lexemes text = some ts) : P text ts := by
  have main : ∀ n (text : List Char) ts, text.length ≤ n → lexemes text = some ts → P text ts := by
    intro n
    induction n with
    | zero =>
      intro text ts hn h
      cases List.length_eq_zero_iff.mp (Nat.le_zero.mp hn)
      cases lexemes_nil.symm.trans h
      exact nil
    | succ n ih =>
      intro text ts hn h
      cases text with
      | nil =>
        cases lexemes_nil.symm.trans h
        exact nil
      | cons c text =>
        rw [lexemes_cons] at h
        cases hr : Token.read c text with
        | error fault => rw [hr] at h; exact absurd h nofun
        | ok front =>
          rw [hr] at h
          obtain ⟨rest, hrest, rfl⟩ := Option.map_eq_some_iff.mp h
          have hl := read_rest_length hr
          rw [List.length_cons] at hn
          exact cons hr hrest (ih front.rest rest (by omega) hrest)
  exact main text.length text ts (Nat.le_refl _) h

section Blank

theorem lexemes_blank (hc : isBlank c = true) :
    lexemes (c :: text) = (lexemes (text.dropWhile isBlank)).map (.blank :: ·) := by
  rw [lexemes_cons, Token.read, if_pos hc]

theorem lexemes_blank_apart (hc : isBlank c = true)
    (ht : ∀ d ∈ text.head?, isBlank d = false) :
    lexemes (c :: text) = (lexemes text).map (.blank :: ·) := by
  rw [lexemes_blank hc]
  cases text with
  | nil => rfl
  | cons d text =>
    have hd : ¬isBlank d = true := by simp [ht d rfl]
    rw [List.dropWhile_cons_of_neg hd]

/-- A blank character before another one changes nothing. -/
theorem lexemes_blank_blank (hc : isBlank c = true) (hd : isBlank d = true) :
    lexemes (c :: d :: text) = lexemes (d :: text) := by
  rw [lexemes_blank hc, lexemes_blank hd, List.dropWhile_cons_of_pos hd]

/-- The runs of blank characters are taken whole. -/
def Spaced (ts : List Token) : Prop :=
  ts.IsChain fun front back => front = .blank → back ≠ .blank

theorem Spaced.right {front back : List Token} (h : Spaced (front ++ back)) : Spaced back :=
  List.IsChain.right_of_append h

theorem Spaced.tail {token : Token} (h : Spaced (token :: ts)) : Spaced ts := List.IsChain.tail h

theorem read_eq_blank {front : Front Token} (h : Token.read c text = .ok front)
    (hf : front.content = .blank) : isBlank c = true := by
  by_contra hc
  rw [Token.read, if_neg hc] at h
  split at h
  · obtain ⟨inner, -, rfl⟩ := map_eq_ok_iff.mp h
    cases hf
  · split at h
    · obtain ⟨inner, -, rfl⟩ := map_eq_ok_iff.mp h
      simp only [Front.map, Token.ofName] at hf
      split at hf <;> cases hf
    · cases h
      revert hf
      fun_cases Token.readSymbol c text with
      | case1 => fun_cases Token.ofSymbol c <;> rintro ⟨⟩
      | case2 d text token hp =>
        revert hp
        fun_cases Token.ofPair c d <;> rintro ⟨⟩ ⟨⟩
      | case3 => fun_cases Token.ofSymbol c <;> rintro ⟨⟩

theorem spaced_of_lexemes (h : lexemes text = some ts) : Spaced ts := by
  have main : Spaced ts ∧ (ts.head? = some .blank → ∃ c ∈ text.head?, isBlank c = true) := by
    refine lexemes_induct (P := fun text ts => Spaced ts ∧
      (ts.head? = some .blank → ∃ c ∈ text.head?, isBlank c = true)) ?_ ?_ h
    · exact ⟨.nil, nofun⟩
    · intro c text front ts hr _ ih
      refine ⟨List.isChain_cons.mpr ⟨fun back hb hf he => ?_, ih.1⟩, fun hf => ?_⟩
      · subst he
        obtain ⟨d, hd, hbd⟩ := ih.2 hb
        rw [Token.read, if_pos (read_eq_blank hr hf)] at hr
        cases hr
        have hn := List.head?_dropWhile_not isBlank text
        rw [show (text.dropWhile isBlank).head? = some d from hd] at hn
        simp [hbd] at hn
      · exact ⟨c, rfl, read_eq_blank hr (Option.some.inj hf)⟩
  exact main.1

end Blank

section Symbol

def isSymbol (c : Char) : Bool :=
  !isBlank c && c != '"' && c != '\'' && c != '\\' && !isNameChar c

theorem read_of_isSymbol (hc : isSymbol c = true) (text : List Char) :
    Token.read c text = .ok (Token.readSymbol c text) := by
  simp only [isSymbol, Bool.and_eq_true, Bool.not_eq_true', bne_iff_ne] at hc
  obtain ⟨⟨⟨⟨hb, hd⟩, hq⟩, he⟩, hn⟩ := hc
  simp [Token.read, hb, hd, hq, he, hn]

theorem lexemes_symbol (hc : isSymbol c = true)
    (hp : ∀ d ∈ text.head?, Token.ofPair c d = none) :
    lexemes (c :: text) = (lexemes text).map (Token.ofSymbol c :: ·) := by
  rw [lexemes_of_read (read_of_isSymbol hc text)]
  cases text with
  | nil => rfl
  | cons d text => rw [Token.readSymbol, hp d rfl]

theorem lexemes_pair {token : Token} (hc : isSymbol c = true)
    (hp : Token.ofPair c d = some token) :
    lexemes (c :: d :: text) = (lexemes text).map (token :: ·) := by
  rw [lexemes_of_read (read_of_isSymbol hc _), Token.readSymbol, hp]

end Symbol

section Name

/-- A text that no name runs on into. -/
def Stops (text : List Char) : Prop := ∀ c ∈ text.head?, c ≠ '\\' ∧ isNameChar c = false

/-- The blank characters that a name may hold without an escape. -/
def isWide (c : Char) : Bool := isBlank c && 128 ≤ c.toNat

/-- Whether a text starts with a blank character that the printer does not escape. -/
def startsWide (text : List Char) : Bool := text.head?.any isWide

theorem isNameChar_of_isWide (h : isWide c = true) : isNameChar c = true := by
  simp only [isWide, Bool.and_eq_true] at h
  simp [isNameChar, h.2]

theorem isBlank_of_isNameChar (h : isNameChar c = true) : isBlank c = isWide c := by
  rw [isWide]
  by_cases hw : 128 ≤ c.toNat
  · simp [hw]
  · have ascii : ∀ n < 128, isNameChar (Char.ofNat n) = true →
        isBlank (Char.ofNat n) = false := by decide
    have hb := ascii c.toNat (Nat.lt_of_not_le hw)
    rw [Char.ofNat_toNat] at hb
    simp [hb h]

theorem readName_of_stops (h : Stops text) : readName text = .ok ⟨[], 0, text⟩ := by
  cases text with
  | nil => rw [readName]
  | cons c text =>
    obtain ⟨he, hn⟩ := h c rfl
    unfold readName
    rw [if_neg he, if_neg (by simp [hn])]

theorem readName_escaped (d : Char) (text : List Char) :
    readName ('\\' :: d :: text) = (readName text).map (.cons d ('\\'.utf8Size + d.utf8Size)) := by
  rw [readName, if_pos rfl]

theorem readName_plain (h : isNameChar c = true) (text : List Char) :
    readName (c :: text) = (readName text).map (.cons c c.utf8Size) := by
  have he : c ≠ '\\' := fun he => absurd (he ▸ h) (by decide)
  rw [readName.eq_def]
  dsimp only
  rw [if_neg he, if_pos h]

theorem readName_writeNameRest (name : List Char) (hs : Stops text) :
    ∃ size, readName (writeNameRest name ++ text) = .ok ⟨name, size, text⟩ := by
  induction name with
  | nil => exact ⟨0, readName_of_stops hs⟩
  | cons c name ih =>
    obtain ⟨size, ih⟩ := ih
    rw [writeNameRest]
    split
    · rename_i hc
      exact ⟨_, by rw [List.cons_append, readName_plain hc, ih]; rfl⟩
    · exact ⟨_, by rw [List.cons_append, List.cons_append, readName_escaped, ih]; rfl⟩

theorem lexemes_writeName (hn : name ≠ []) (hw : startsWide name = false) (hs : Stops text) :
    lexemes (writeName name ++ text) =
      (lexemes text).map (.ident (.ofList name) :: ·) := by
  cases name with
  | nil => exact absurd rfl hn
  | cons c name =>
    obtain ⟨size, hr⟩ := readName_writeNameRest name hs
    rw [writeName]
    split
    · rename_i hc
      simp only [Bool.and_eq_true, Bool.not_eq_true'] at hc
      obtain ⟨hc, hd⟩ := hc
      have hb : isBlank c = false := (isBlank_of_isNameChar hc).trans (by simpa [startsWide] using hw)
      have hquote : ¬(c = '"' ∨ c = '\'') := by
        rintro (rfl | rfl) <;> exact absurd hc (by decide)
      have hread : Token.read c (writeNameRest name ++ text) =
          .ok ⟨.ident (.ofList (c :: name)), c.utf8Size + size, text⟩ := by
        rw [Token.read, if_neg (by simp [hb]), if_neg hquote, if_pos (.inr hc),
          readName_plain hc, hr]
        simp [Except.map, Front.cons, Front.map, Token.ofName, hd]
      exact lexemes_of_read hread
    · have hread : Token.read '\\' (c :: (writeNameRest name ++ text)) =
          .ok ⟨.ident (.ofList (c :: name)), '\\'.utf8Size + c.utf8Size + size, text⟩ := by
        rw [Token.read, if_neg (by decide), if_neg (by decide), if_pos (.inl rfl),
          readName_escaped, hr]
        rfl
      exact lexemes_of_read hread

theorem writeName_eq_cons (hn : name ≠ []) : ∃ c rest, writeName name = c :: rest ∧
    (c = '\\' ∨ isNameChar c = true ∧ name.head? = some c) := by
  cases name with
  | nil => exact absurd rfl hn
  | cons c name =>
    rw [writeName]
    split
    · rename_i hc
      simp only [Bool.and_eq_true] at hc
      exact ⟨_, _, rfl, .inr ⟨hc.1, rfl⟩⟩
    · exact ⟨_, _, rfl, .inl rfl⟩

theorem head?_writeName_not_blank (hn : name ≠ []) (hw : startsWide name = false) :
    ∀ c ∈ (writeName name ++ text).head?, isBlank c = false := by
  obtain ⟨c, rest, he, hc⟩ := writeName_eq_cons hn
  rw [he]
  rintro d ⟨⟩
  rcases hc with rfl | ⟨hc, hh⟩
  · decide
  · rw [startsWide, hh] at hw
    exact (isBlank_of_isNameChar hc).trans hw

theorem head?_writeName_ne_colon (text : List Char) (hn : name ≠ []) :
    (writeName name ++ text).head? ≠ some ':' := by
  obtain ⟨c, rest, he, hc⟩ := writeName_eq_cons hn
  rw [he]
  rintro ⟨⟩
  rcases hc with hc | ⟨hc, -⟩
  · exact absurd hc (by decide)
  · exact absurd hc (by decide)

end Name

section Quoted

theorem readQuoted_writeQuotedRest (value text : List Char) :
    ∃ size, readQuoted '"' (writeQuotedRest value ++ text) = .ok ⟨value, size, text⟩ := by
  induction value with
  | nil =>
    refine ⟨'"'.utf8Size, ?_⟩
    rw [writeQuotedRest, List.singleton_append, readQuoted.eq_def]
    exact if_pos rfl
  | cons c value ih =>
    obtain ⟨size, ih⟩ := ih
    rw [writeQuotedRest]
    split
    · refine ⟨'\\'.utf8Size + c.utf8Size + size, ?_⟩
      rw [List.cons_append, List.cons_append, readQuoted, if_neg (by decide), if_pos rfl, ih]
      rfl
    · rename_i hc
      rw [not_or] at hc
      refine ⟨c.utf8Size + size, ?_⟩
      rw [List.cons_append, readQuoted.eq_def]
      dsimp only
      rw [if_neg hc.1, if_neg hc.2, ih]
      rfl

theorem lexemes_writeQuoted (value text : List Char) :
    lexemes (writeQuoted value ++ text) = (lexemes text).map (.quoted (.ofList value) :: ·) := by
  obtain ⟨size, hr⟩ := readQuoted_writeQuotedRest value text
  have hread : Token.read '"' (writeQuotedRest value ++ text) =
      .ok ⟨.quoted (.ofList value), '"'.utf8Size + size, text⟩ := by
    rw [Token.read, if_neg (by decide), if_pos (.inl rfl), hr]
    rfl
  exact lexemes_of_read hread

end Quoted

section Measure

/-- What a token holds is not empty, and no operator is left out. -/
def Token.Proper : Token → Prop
  | .ident name | .numeral name => name ≠ ""
  | .operator op => op ≠ .present
  | _ => True

/-- The number of blank characters beyond ASCII. -/
def wideCount (text : List Char) : Nat := text.countP isWide

def Token.wideCount : Token → Nat
  | .ident content | .numeral content | .quoted content => TreeQuery.wideCount content.toList
  | _ => 0

@[simp] theorem wideCount_nil : wideCount [] = 0 := rfl

theorem wideCount_cons (c : Char) (text : List Char) :
    wideCount (c :: text) = wideCount text + if isWide c then 1 else 0 :=
  List.countP_cons

theorem wideCount_append (front back : List Char) :
    wideCount (front ++ back) = wideCount front + wideCount back :=
  List.countP_append

def tokensWide (ts : List Token) : Nat := (ts.map Token.wideCount).sum

@[simp] theorem tokensWide_nil : tokensWide [] = 0 := rfl

@[simp] theorem tokensWide_cons (token : Token) (ts : List Token) :
    tokensWide (token :: ts) = token.wideCount + tokensWide ts := rfl

@[simp] theorem tokensWide_append (front back : List Token) :
    tokensWide (front ++ back) = tokensWide front + tokensWide back := by
  simp [tokensWide]

theorem readName_wideCount {front : Front (List Char)} (h : readName text = .ok front) :
    wideCount front.content + wideCount front.rest ≤ wideCount text := by
  fun_induction readName text generalizing front with
  | case1 => cases h; exact Nat.le_refl _
  | case2 => cases h
  | case3 d text ih =>
    obtain ⟨inner, hi, rfl⟩ := map_eq_ok_iff.mp h
    have := ih hi
    simp only [Front.cons, wideCount_cons]
    omega
  | case4 c text _ _ ih =>
    obtain ⟨inner, hi, rfl⟩ := map_eq_ok_iff.mp h
    have := ih hi
    simp only [Front.cons, wideCount_cons]
    omega
  | case5 => cases h; exact Nat.le_of_eq (Nat.zero_add _)

theorem readQuoted_wideCount {quote : Char} {front : Front (List Char)}
    (h : readQuoted quote text = .ok front) :
    wideCount front.content + wideCount front.rest ≤ wideCount text := by
  fun_induction readQuoted quote text generalizing front with
  | case1 => cases h
  | case2 =>
    cases h
    simp only [wideCount_nil, wideCount_cons]
    omega
  | case3 => cases h
  | case4 d text _ ih =>
    obtain ⟨inner, hi, rfl⟩ := map_eq_ok_iff.mp h
    have := ih hi
    simp only [Front.cons, wideCount_cons]
    omega
  | case5 c text _ _ ih =>
    obtain ⟨inner, hi, rfl⟩ := map_eq_ok_iff.mp h
    have := ih hi
    simp only [Front.cons, wideCount_cons]
    omega

theorem readSymbol_spec (c : Char) (text : List Char) :
    (Token.readSymbol c text).content.Proper ∧
      (Token.readSymbol c text).content.wideCount = 0 ∧
      wideCount (Token.readSymbol c text).rest ≤ wideCount (c :: text) := by
  have hsymbol : (Token.ofSymbol c).Proper ∧ (Token.ofSymbol c).wideCount = 0 := by
    fun_cases Token.ofSymbol c <;> simp [Token.Proper, Token.wideCount]
  fun_cases Token.readSymbol c text with
  | case1 => exact ⟨hsymbol.1, hsymbol.2, Nat.zero_le _⟩
  | case2 d text token hp =>
    have hpair : token.Proper ∧ token.wideCount = 0 := by
      revert hp
      fun_cases Token.ofPair c d <;> rintro ⟨⟩ <;> simp [Token.Proper, Token.wideCount]
    refine ⟨hpair.1, hpair.2, ?_⟩
    simp only [wideCount_cons]
    omega
  | case3 d text =>
    refine ⟨hsymbol.1, hsymbol.2, ?_⟩
    simp only [wideCount_cons]
    omega

theorem readName_ne_nil {front : Front (List Char)} (hc : c = '\\' ∨ isNameChar c = true)
    (h : readName (c :: text) = .ok front) : front.content ≠ [] := by
  rw [readName.eq_def] at h
  dsimp only at h
  split at h
  · split at h
    · cases h
    · obtain ⟨inner, -, rfl⟩ := map_eq_ok_iff.mp h
      exact List.cons_ne_nil _ _
  · rename_i he
    rw [if_pos (hc.resolve_left he)] at h
    obtain ⟨inner, -, rfl⟩ := map_eq_ok_iff.mp h
    exact List.cons_ne_nil _ _

/-- A token is proper and has no more blank characters beyond ASCII than the text it is taken
from. -/
theorem read_spec {front : Front Token} (h : Token.read c text = .ok front) :
    front.content.Proper ∧
      front.content.wideCount + wideCount front.rest ≤ wideCount (c :: text) := by
  rw [Token.read] at h
  split at h
  · cases h
    have hdrop : wideCount (text.dropWhile isBlank) ≤ wideCount text :=
      (List.dropWhile_sublist isBlank).countP_le
    refine ⟨trivial, ?_⟩
    simp only [Token.wideCount, wideCount_cons]
    omega
  · split at h
    · obtain ⟨inner, hi, rfl⟩ := map_eq_ok_iff.mp h
      have := readQuoted_wideCount hi
      refine ⟨trivial, ?_⟩
      simp only [Token.wideCount, wideCount_cons, String.toList_ofList]
      omega
    · split at h
      · rename_i hc
        obtain ⟨inner, hi, rfl⟩ := map_eq_ok_iff.mp h
        have hn : String.ofList inner.content ≠ "" := fun he =>
          readName_ne_nil hc hi (by rw [← String.toList_ofList (l := inner.content), he]; rfl)
        have hw := readName_wideCount hi
        simp only [Front.map, Token.ofName]
        split
        · exact ⟨hn, by rwa [Token.wideCount, String.toList_ofList]⟩
        · exact ⟨hn, by rwa [Token.wideCount, String.toList_ofList]⟩
      · cases h
        obtain ⟨hp, hz, hw⟩ := readSymbol_spec c text
        exact ⟨hp, by omega⟩

theorem proper_of_lexemes (h : lexemes text = some ts) : ∀ token ∈ ts, token.Proper := by
  refine lexemes_induct (P := fun _ ts => ∀ token ∈ ts, token.Proper) nofun ?_ h
  intro c text front ts hr _ ih
  exact List.forall_mem_cons.mpr ⟨(read_spec hr).1, ih⟩

theorem wideCount_lexemes (h : lexemes text = some ts) :
    tokensWide ts ≤ wideCount text := by
  refine lexemes_induct (P := fun text ts => tokensWide ts ≤ wideCount text)
    (Nat.le_refl _) ?_ h
  intro c text front ts hr _ ih
  have := (read_spec hr).2
  rw [tokensWide_cons]
  omega

end Measure

end TreeQuery
