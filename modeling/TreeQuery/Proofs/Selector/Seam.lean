import TreeQuery.Proofs.Selector.Writing

/-! Texts put together and cut apart between two tokens.
A token is read from its own characters as soon as the character behind it does not run on. So the
tokens of two texts are those of the texts in a row wherever the last token of the first one stops,
and a text can be cut before each of its tokens without changing any. -/
namespace TreeQuery

/-- Whether a character that stands behind a token would be read as a part of it. -/
def Token.runsOn : Token → Char → Bool
  | .blank, c => isBlank c
  | .ident _, c | .numeral _, c => c == '\\' || isNameChar c
  | .star, c | .tilde, c | .pipe, c => c == '='
  | .other d, c => (d == '^' || d == '$') && c == '='
  | .colon, c => c == ':'
  | .quoted _, _ | .operator _, _ | .hash, _ | .dot, _ | .leftBracket, _ | .rightBracket, _
  | .doubleColon, _ | .comma, _ | .greater, _ | .plus, _ => false

/-- The token ends where the text begins. -/
def Token.StopsAt (token : Token) (text : List Char) : Prop :=
  ∀ c ∈ text.head?, token.runsOn c = false

def StopAt (ts : List Token) (text : List Char) : Prop :=
  ∀ token ∈ ts.getLast?, token.StopsAt text

variable {c d : Char} {text front back taken : List Char} {token : Token} {ts us : List Token}
  {offset : Nat} {placed before after : List PlacedToken}

theorem Token.stopsAt_nil : token.StopsAt [] := nofun

theorem Token.StopsAt.of_append (h : token.StopsAt (front ++ back)) : token.StopsAt front := by
  cases front with
  | nil => exact stopsAt_nil
  | cons c front => exact h

theorem Token.StopsAt.append (hf : token.StopsAt front) (hb : front = [] → token.StopsAt back) :
    token.StopsAt (front ++ back) := by
  cases front with
  | nil => exact hb rfl
  | cons c front => exact hf

section Read

theorem readName_local {front : Front (List Char)} (h : readName text = .ok front) :
    ∃ taken, text = taken ++ front.rest ∧ front.size = byteCount taken ∧ Stops front.rest ∧
      ∀ other, Stops other → readName (taken ++ other) = .ok ⟨front.content, front.size, other⟩ := by
  fun_induction readName text generalizing front with
  | case1 =>
    cases h
    exact ⟨[], rfl, rfl, (by rintro c ⟨⟩), fun other => readName_of_stops⟩
  | case2 => cases h
  | case3 d text ih =>
    obtain ⟨inner, hi, rfl⟩ := map_eq_ok_iff.mp h
    obtain ⟨taken, ht, hsize, hstops, hother⟩ := ih hi
    refine ⟨'\\' :: d :: taken, by rw [ht]; rfl, ?_, hstops, fun other ho => ?_⟩
    · simp [Front.cons, hsize, Nat.add_assoc]
    · rw [List.cons_append, List.cons_append, readName_escaped, hother other ho]
      rfl
  | case4 c text _ hc ih =>
    obtain ⟨inner, hi, rfl⟩ := map_eq_ok_iff.mp h
    obtain ⟨taken, ht, hsize, hstops, hother⟩ := ih hi
    refine ⟨c :: taken, by rw [ht]; rfl, ?_, hstops, fun other ho => ?_⟩
    · simp [Front.cons, hsize]
    · rw [List.cons_append, readName_plain hc, hother other ho]
      rfl
  | case5 c text he hc =>
    cases h
    refine ⟨[], rfl, rfl, ?_, fun other => readName_of_stops⟩
    rintro d ⟨⟩
    exact ⟨he, Bool.eq_false_iff.mpr hc⟩

theorem readQuoted_local {quote : Char} {front : Front (List Char)}
    (h : readQuoted quote text = .ok front) :
    ∃ taken, text = taken ++ front.rest ∧ front.size = byteCount taken ∧
      ∀ other, readQuoted quote (taken ++ other) = .ok ⟨front.content, front.size, other⟩ := by
  fun_induction readQuoted quote text generalizing front with
  | case1 => cases h
  | case2 text =>
    cases h
    refine ⟨[quote], rfl, rfl, fun other => ?_⟩
    rw [List.singleton_append, readQuoted.eq_def]
    exact if_pos rfl
  | case3 => cases h
  | case4 d text hq ih =>
    obtain ⟨inner, hi, rfl⟩ := map_eq_ok_iff.mp h
    obtain ⟨taken, ht, hsize, hother⟩ := ih hi
    refine ⟨'\\' :: d :: taken, by rw [ht]; rfl, ?_, fun other => ?_⟩
    · simp [Front.cons, hsize, Nat.add_assoc]
    · rw [List.cons_append, List.cons_append, readQuoted, if_neg hq, if_pos rfl, hother other]
      rfl
  | case5 c text hq he ih =>
    obtain ⟨inner, hi, rfl⟩ := map_eq_ok_iff.mp h
    obtain ⟨taken, ht, hsize, hother⟩ := ih hi
    refine ⟨c :: taken, by rw [ht]; rfl, ?_, fun other => ?_⟩
    · simp [Front.cons, hsize]
    · rw [List.cons_append, readQuoted.eq_def]
      dsimp only
      rw [if_neg hq, if_neg he, hother other]
      rfl

theorem runsOn_ofSymbol (c d : Char) : (Token.ofSymbol c).runsOn d = (Token.ofPair c d).isSome := by
  fun_cases Token.ofPair c d with
  | case7 => fun_cases Token.ofSymbol c <;> grind [Token.runsOn]
  | _ => rfl

theorem runsOn_ofPair (h : Token.ofPair c d = some token) (e : Char) : token.runsOn e = false := by
  revert h
  fun_cases Token.ofPair c d <;> rintro ⟨⟩ <;> rfl

theorem readSymbol_local (c : Char) (text : List Char) :
    ∃ taken, text = taken ++ (Token.readSymbol c text).rest ∧
      (Token.readSymbol c text).size = byteCount (c :: taken) ∧
      (Token.readSymbol c text).content.StopsAt (Token.readSymbol c text).rest ∧
      ∀ other, (Token.readSymbol c text).content.StopsAt other →
        Token.readSymbol c (taken ++ other) =
          ⟨(Token.readSymbol c text).content, (Token.readSymbol c text).size, other⟩ := by
  have single : ∀ other, (Token.ofSymbol c).StopsAt other →
      Token.readSymbol c other = ⟨Token.ofSymbol c, c.utf8Size, other⟩ := by
    intro other ho
    cases other with
    | nil => rfl
    | cons d other =>
      have hp : Token.ofPair c d = none := by
        have hd := ho d rfl
        rw [runsOn_ofSymbol] at hd
        simpa using hd
      rw [Token.readSymbol, hp]
  fun_cases Token.readSymbol c text with
  | case1 => exact ⟨[], rfl, rfl, Token.stopsAt_nil, single⟩
  | case2 d text token hp =>
    refine ⟨[d], rfl, rfl, fun e _ => runsOn_ofPair hp e, fun other _ => ?_⟩
    rw [List.singleton_append, Token.readSymbol, hp]
  | case3 d text hp =>
    refine ⟨[], rfl, rfl, ?_, single⟩
    rintro e ⟨⟩
    rw [runsOn_ofSymbol, hp]
    rfl

theorem stopsAt_ofName_iff {first : Char} {name : List Char} :
    (Token.ofName first name).StopsAt text ↔ Stops text := by
  have hruns : ∀ c, (Token.ofName first name).runsOn c = false ↔ c ≠ '\\' ∧ isNameChar c = false := by
    intro c
    rw [Token.ofName]
    split <;> simp [Token.runsOn]
  exact forall₂_congr fun c _ => hruns c

theorem read_blank (hc : isBlank c = true) (text : List Char) : Token.read c text =
    .ok ⟨.blank, byteCount (c :: text.takeWhile isBlank), text.dropWhile isBlank⟩ :=
  if_pos hc

theorem blank_local (text : List Char) : Token.blank.StopsAt (text.dropWhile isBlank) ∧
    ∀ other, Token.blank.StopsAt other →
      (text.takeWhile isBlank ++ other).takeWhile isBlank = text.takeWhile isBlank ∧
        (text.takeWhile isBlank ++ other).dropWhile isBlank = other := by
  constructor
  · intro c hc
    have hn := List.head?_dropWhile_not isBlank text
    rw [Option.mem_def.mp hc] at hn
    change isBlank c = false
    simpa using hn
  · intro other ho
    have hall := List.all_eq_true.mp (List.all_takeWhile (p := isBlank) (l := text))
    rw [List.takeWhile_append_of_pos hall, List.dropWhile_append_of_pos hall]
    cases other with
    | nil => exact ⟨List.append_nil _, rfl⟩
    | cons c other =>
      have hc : ¬isBlank c = true := Bool.eq_false_iff.mp (ho c rfl)
      rw [List.takeWhile_cons_of_neg hc, List.dropWhile_cons_of_neg hc, List.append_nil]
      exact ⟨rfl, rfl⟩

/-- A token is read from its own characters, whatever stands behind them that does not run on. -/
theorem read_local {front : Front Token} (h : Token.read c text = .ok front) :
    ∃ taken, text = taken ++ front.rest ∧ front.size = byteCount (c :: taken) ∧
      front.content.StopsAt front.rest ∧ ∀ other, front.content.StopsAt other →
        Token.read c (taken ++ other) = .ok ⟨front.content, front.size, other⟩ := by
  by_cases hb : isBlank c = true
  · rw [read_blank hb] at h
    cases h
    obtain ⟨hstops, hother⟩ := blank_local text
    refine ⟨_, List.takeWhile_append_dropWhile.symm, rfl, hstops, fun other ho => ?_⟩
    rw [read_blank hb, (hother other ho).1, (hother other ho).2]
  by_cases hq : c = '"' ∨ c = '\''
  · have hread : ∀ text, Token.read c text = (readQuoted c text).map fun front =>
        ⟨.quoted (.ofList front.content), c.utf8Size + front.size, front.rest⟩ := by
      intro text
      rw [Token.read, if_neg hb, if_pos hq]
    rw [hread] at h
    obtain ⟨inner, hi, rfl⟩ := map_eq_ok_iff.mp h
    obtain ⟨taken, ht, hsize, hother⟩ := readQuoted_local hi
    refine ⟨taken, ht, by rw [hsize]; rfl, fun _ _ => rfl, fun other _ => ?_⟩
    rw [hread, hother other]
    rfl
  by_cases hc : c = '\\' ∨ isNameChar c = true
  · have hread : ∀ text, Token.read c text =
        (readName (c :: text)).map (.map (Token.ofName c)) := by
      intro text
      rw [Token.read, if_neg hb, if_neg hq, if_pos hc]
    rw [hread] at h
    obtain ⟨inner, hi, rfl⟩ := map_eq_ok_iff.mp h
    obtain ⟨taken, ht, hsize, hstops, hother⟩ := readName_local hi
    cases taken with
    | nil =>
      obtain ⟨he, hn⟩ := hstops c (by rw [← List.nil_append inner.rest, ← ht]; rfl)
      exact absurd hc (by simp [he, hn])
    | cons d taken =>
      obtain ⟨rfl, hrest⟩ := List.cons.inj ht
      refine ⟨taken, hrest, hsize, stopsAt_ofName_iff.mpr hstops, fun other ho => ?_⟩
      rw [hread, ← List.cons_append, hother other (stopsAt_ofName_iff.mp ho)]
      rfl
  · have hread : ∀ text, Token.read c text = .ok (Token.readSymbol c text) := by
      intro text
      rw [Token.read, if_neg hb, if_neg hq, if_neg hc]
    rw [hread] at h
    cases h
    obtain ⟨taken, ht, hsize, hstops, hother⟩ := readSymbol_local c text
    refine ⟨taken, ht, hsize, hstops, fun other ho => ?_⟩
    rw [hread, hother other ho]

end Read

section Join

theorem stopAt_nil : StopAt ts [] := fun _ _ => Token.stopsAt_nil

theorem stopAt_cons (h : StopAt (token :: ts) text) : StopAt ts text := by
  intro last hl
  refine h last ?_
  rw [Option.mem_def, List.getLast?_cons, Option.mem_def.mp hl]
  rfl

theorem gives_of_lexemes (h : lexemes front = some ts) (hs : StopAt ts text) :
    Gives front ts text := by
  refine lexemes_induct (P := fun front ts => StopAt ts text → Gives front ts text)
    (fun _ => .nil) ?_ h hs
  intro c rest token ts hr hl ih hs
  obtain ⟨taken, rfl, -, hstops, hother⟩ := read_local hr
  have hbehind : token.content.StopsAt (token.rest ++ text) := by
    refine hstops.append fun hn => hs token.content ?_
    rw [hn, lexemes_nil] at hl
    cases hl
    rfl
  have hread : Token.read c (taken ++ (token.rest ++ text)) =
      .ok ⟨token.content, token.size, token.rest ++ text⟩ := hother _ hbehind
  have hrest : lexemes (token.rest ++ text) = (lexemes text).map (ts ++ ·) := ih (stopAt_cons hs)
  rw [Gives, List.cons_append, List.append_assoc, lexemes_of_read hread]
  dsimp only
  rw [hrest, Option.map_map]
  rfl

end Join

section Cut

theorem eq_nil_of_tokensFrom (h : tokensFrom offset text = .ok []) : text = [] := by
  cases text with
  | nil => rfl
  | cons c text =>
    rw [tokensFrom_cons] at h
    cases hr : Token.read c text with
    | error fault => rw [hr] at h; cases h
    | ok token =>
      rw [hr] at h
      obtain ⟨rest, -, he⟩ := map_eq_ok_iff.mp h
      cases he

/-- A text is cut before any of its tokens into two texts with the tokens before and after. -/
theorem exists_cut (h : tokensFrom offset text = .ok (before ++ after)) :
    ∃ front back, text = front ++ back ∧ tokensFrom offset front = .ok before ∧
      tokensFrom (offset + byteCount front) back = .ok after ∧
      StopAt (before.map PlacedToken.token) back := by
  induction before generalizing offset text with
  | nil => exact ⟨[], text, rfl, by rw [tokensFrom], h, nofun⟩
  | cons first before ih =>
    cases text with
    | nil =>
      rw [tokensFrom] at h
      cases h
    | cons c text =>
      rw [tokensFrom_cons] at h
      cases hr : Token.read c text with
      | error fault => rw [hr] at h; cases h
      | ok token =>
        rw [hr] at h
        obtain ⟨rest, hrest, he⟩ := map_eq_ok_iff.mp h
        obtain ⟨rfl, rfl⟩ := List.cons.inj he
        obtain ⟨front, back, hsplit, hfront, hback, hseam⟩ := ih hrest
        obtain ⟨taken, rfl, hsize, hstops, hother⟩ := read_local hr
        rw [hsplit] at hstops
        have hread := hother front hstops.of_append
        refine ⟨c :: (taken ++ front), back, ?_, ?_, ?_, ?_⟩
        · rw [hsplit, List.cons_append, List.append_assoc]
        · rw [tokensFrom_cons, hread]
          dsimp only
          rw [hfront]
          rfl
        · rw [← List.cons_append, byteCount_append, ← hsize, ← Nat.add_assoc]
          exact hback
        · cases before with
          | nil =>
            rw [eq_nil_of_tokensFrom hfront, List.nil_append] at hstops
            rintro last ⟨⟩
            exact hstops
          | cons next before =>
            intro last hl
            exact hseam last (by simpa [List.getLast?_cons_cons] using hl)

theorem exists_split (h : lexemes text = some (ts ++ us)) :
    ∃ front back, text = front ++ back ∧ lexemes front = some ts ∧ lexemes back = some us ∧
      StopAt ts back := by
  obtain ⟨placed, ht, hmap⟩ := lexemes_eq_some_iff.mp h
  obtain ⟨before, after, rfl, rfl, rfl⟩ := List.map_eq_append_iff.mp hmap
  obtain ⟨front, back, hsplit, hfront, hback, hseam⟩ := exists_cut ht
  refine ⟨front, back, hsplit, ?_, ?_, hseam⟩
  · exact lexemes_eq_some_iff.mpr ⟨before, hfront, rfl⟩
  · rw [← toOption_tokensFrom (0 + byteCount front), hback]
    rfl

theorem offsets_of_tokensFrom (h : tokensFrom offset text = .ok placed) :
    placed.Pairwise (fun front back => front.offset < back.offset) ∧
      ∀ token ∈ placed, offset ≤ token.offset ∧ token.offset < offset + byteCount text := by
  fun_induction tokensFrom offset text generalizing placed with
  | case1 =>
    cases h
    exact ⟨.nil, fun _ hm => absurd hm List.not_mem_nil⟩
  | case2 => cases h
  | case3 offset c text token hr ih =>
    obtain ⟨rest, hrest, rfl⟩ := map_eq_ok_iff.mp h
    obtain ⟨hpair, hbound⟩ := ih hrest
    obtain ⟨taken, rfl, hsize, -, -⟩ := read_local hr
    have hpos := c.utf8Size_pos
    rw [byteCount_cons] at hsize
    refine ⟨.cons (fun back hb => ?_) hpair, List.forall_mem_cons.mpr ⟨?_, fun back hb => ?_⟩⟩
    · have := (hbound back hb).1
      simp only
      omega
    · simp only [byteCount_cons]
      omega
    · have := hbound back hb
      simp only [byteCount_cons, byteCount_append]
      omega

theorem exists_cut_before {first : PlacedToken}
    (h : tokens text = .ok (before ++ first :: after)) :
    ∃ front back, text = front ++ back ∧ tokens front = .ok before ∧
      byteCount front = first.offset := by
  obtain ⟨front, back, hsplit, hfront, hback, -⟩ := exists_cut h
  refine ⟨front, back, hsplit, hfront, ?_⟩
  cases back with
  | nil =>
    rw [tokensFrom] at hback
    cases hback
  | cons c back =>
    rw [tokensFrom_cons] at hback
    cases hr : Token.read c back with
    | error fault => rw [hr] at hback; cases hback
    | ok token =>
      rw [hr] at hback
      obtain ⟨rest, -, he⟩ := map_eq_ok_iff.mp hback
      cases he
      exact (Nat.zero_add _).symm

end Cut

end TreeQuery
