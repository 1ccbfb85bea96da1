import Mathlib.Data.List.TakeWhile
import TreeQuery.Proofs.Selector.Derivation
import TreeQuery.Proofs.Selector.Seam

/-! Texts of lists joined by a comma or a combinator.
At the seam the sign or the blank character is read between the tokens of the two texts; only blank
space at the inner ends is taken into it. What is derived from the joined tokens is the two lists in
a row, with the two selectors at the seam made one where a combinator joins them. -/
namespace TreeQuery

/-- Two selectors in a row, the first step of the second one joined by a combinator. -/
def Selector.join (front : Selector) (combinator : Combinator) (back : Selector) : Selector :=
  ⟨front.steps ++ back.steps.modifyHead (·.joinedBy combinator),
    List.append_ne_nil_of_left_ne_nil front.nonempty _⟩

variable {c : Char} {text front back : List Char} {ts us js gap before after : List Token}
  {token : Token}

theorem parse_eq_ok_iff_lexemes {text : String} {list : SelectorList} :
    SelectorList.parse text = .ok list ↔
      ∃ ts, lexemes text.toList = some ts ∧ Grammar.Derives ts list := by
  simp only [parse_eq_ok_iff, Grammar.derives_iff, exists_and_left]

namespace Grammar

variable {combinator next : Combinator} {steps left right : List Step}
  {members fronts backs : List (List Step)} {list : SelectorList}

section Ends

theorem Steps.first (h : Steps combinator ts steps) :
    ∃ token ∈ ts.head?, startsCompound token = true := by
  cases h with
  | last hc => exact hc.first
  | cons hc _ _ =>
    obtain ⟨token, ht, hs⟩ := hc.first
    exact ⟨token, List.mem_head?_append_of_mem_head? ht, hs⟩

theorem Members.first (h : Members combinator ts members) :
    ∃ token ∈ ts.head?, startsCompound token = true := by
  cases h with
  | last hs => exact hs.first
  | cons hs _ _ =>
    obtain ⟨token, ht, hstart⟩ := hs.first
    exact ⟨token, List.mem_head?_append_of_mem_head? ht, hstart⟩

theorem Steps.ends (h : Steps combinator ts steps) :
    ∃ token ∈ ts.getLast?, closesCompound token = true := by
  induction h with
  | last hc => exact hc.ends
  | cons _ _ _ ih =>
    obtain ⟨token, ht, hc⟩ := ih
    exact ⟨token, List.mem_getLast?_append_of_mem_getLast?
      (List.mem_getLast?_append_of_mem_getLast? ht), hc⟩

theorem Members.ends (h : Members combinator ts members) :
    ∃ token ∈ ts.getLast?, closesCompound token = true := by
  induction h with
  | last hs => exact hs.ends
  | cons _ _ _ ih =>
    obtain ⟨token, ht, hc⟩ := ih
    exact ⟨token, List.mem_getLast?_append_of_mem_getLast?
      (List.mem_getLast?_append_of_mem_getLast? ht), hc⟩

end Ends

section Append

theorem Steps.rejoin (h : Steps combinator ts steps) (next : Combinator) :
    Steps next ts (steps.modifyHead (·.joinedBy next)) := by
  cases h with
  | last hc => exact .last hc
  | cons hc hj hs => exact .cons hc hj hs

theorem Members.rejoin (h : Members combinator ts members) (next : Combinator) :
    Members next ts (members.modifyHead (List.modifyHead (·.joinedBy next))) := by
  cases h with
  | last hs => exact .last (hs.rejoin next)
  | cons hs hj hm => exact .cons (hs.rejoin next) hj hm

theorem Members.append (hf : Members combinator ts fronts) (hj : Joint js .nextSelector)
    (hb : Members .none us backs) : Members combinator (ts ++ (js ++ us)) (fronts ++ backs) := by
  induction hf with
  | last hs => exact .cons hs hj hb
  | cons hs hn _ ih =>
    rw [List.append_assoc, List.append_assoc]
    exact .cons hs hn ih

theorem Steps.prepend (hf : Steps combinator ts left) (hj : Joint js (.combinator next))
    (hb : Members next us members) :
    Members combinator (ts ++ (js ++ us)) (members.modifyHead (left ++ ·)) := by
  induction hf with
  | last hc => exact hb.prepend hc hj
  | @cons combinator ts parts joint other rest steps hc hn _ ih =>
    have h : Members combinator _ _ := ih.prepend hc hn
    rw [List.modifyHead_modifyHead] at h
    rw [List.append_assoc, List.append_assoc]
    exact h

theorem Members.join (hf : Members combinator ts (fronts ++ [left]))
    (hj : Joint js (.combinator next)) (hb : Members next us (right :: backs)) :
    Members combinator (ts ++ (js ++ us)) (fronts ++ (left ++ right) :: backs) := by
  generalize hm : fronts ++ [left] = members at hf
  induction hf generalizing fronts with
  | last hs =>
    cases fronts with
    | nil =>
      cases hm
      exact hs.prepend hj hb
    | cons other fronts => simp at hm
  | cons hs hn hrest ih =>
    cases fronts with
    | nil =>
      cases hm
      exact absurd hrest nofun
    | cons other fronts =>
      obtain ⟨rfl, hmembers⟩ := List.cons.inj hm
      rw [List.append_assoc, List.append_assoc]
      exact .cons hs hn (ih hmembers)

end Append

section Derive

variable {init rest : List Selector} {left right : Selector}

theorem Derives.head?_ne (h : Derives ts list) : ts.head? ≠ some (.operator .equals) := by
  obtain ⟨hg, hm, -⟩ := h
  cases hg with
  | absent =>
    obtain ⟨token, ht, hs⟩ := hm.first
    rw [List.nil_append, Option.mem_def.mp (List.mem_head?_append_of_mem_head? ht)]
    rintro ⟨⟩
    cases hs
  | present => exact nofun

/-- The blank space on both sides of a comma belongs to the joint. -/
theorem Derives.append {fronts backs : List Selector} (hf : Derives ts ⟨fronts⟩)
    (hb : Derives us ⟨backs⟩) : Derives (ts ++ .comma :: us) ⟨fronts ++ backs⟩ := by
  obtain @⟨g, ts, h, _, hg, hm, hh⟩ := hf
  obtain @⟨g', us, h', _, hg', hm', hh'⟩ := hb
  have hms := hm.append (.sign .comma hh hg') hm'
  rw [← List.map_append] at hms
  have hd : Derives _ ⟨fronts ++ backs⟩ := .intro hg hms hh'
  simpa only [List.append_assoc, List.cons_append] using hd

theorem Members.derives_join (hg : Gap before)
    (hf : Members .none ts ((init ++ [left]).map Selector.steps)) (hj : Joint js (.combinator next))
    (hb : Members .none us ((right :: rest).map Selector.steps)) (hh : Gap after) :
    Derives (before ++ (ts ++ (js ++ (us ++ after)))) ⟨init ++ left.join next right :: rest⟩ := by
  rw [List.map_append] at hf
  have hm := hf.join hj (hb.rejoin next)
  have hd : Derives _ ⟨init ++ left.join next right :: rest⟩ :=
    .intro hg (by rw [List.map_append]; exact hm) hh
  simpa only [List.append_assoc] using hd

theorem Derives.join (hf : Derives ts ⟨init ++ [left]⟩) (hb : Derives us ⟨right :: rest⟩)
    (hs : Sign token (.combinator next)) :
    Derives (ts ++ token :: us) ⟨init ++ left.join next right :: rest⟩ := by
  obtain ⟨hg, hm, hh⟩ := hf
  obtain ⟨hg', hm', hh'⟩ := hb
  have hd := hm.derives_join hg (.sign hs hh hg') hm' hh'
  simpa only [List.append_assoc, List.cons_append] using hd

end Derive

end Grammar

section Text

theorem eq_nil_of_lexemes (h : lexemes text = some []) : text = [] := by
  obtain ⟨placed, ht, hmap⟩ := lexemes_eq_some_iff.mp h
  rw [List.map_eq_nil_iff.mp hmap] at ht
  exact eq_nil_of_tokensFrom ht

theorem read_of_lexemes (h : lexemes (c :: text) = some (token :: ts)) :
    ∃ front, Token.read c text = .ok front ∧ front.content = token ∧
      lexemes front.rest = some ts := by
  rw [lexemes_cons] at h
  cases hr : Token.read c text with
  | error fault => rw [hr] at h; cases h
  | ok front =>
    rw [hr] at h
    obtain ⟨rest, hrest, he⟩ := Option.map_eq_some_iff.mp h
    obtain ⟨rfl, rfl⟩ := List.cons.inj he
    exact ⟨front, rfl, rfl, hrest⟩

theorem head_of_lexemes (h : lexemes text = some ts) :
    ∀ c ∈ text.head?, (isBlank c = true → ts.head? = some .blank) ∧
      (c = '=' → ts.head? = some (.operator .equals)) := by
  rintro c hc
  obtain ⟨rest, rfl⟩ := List.head?_eq_some_iff.mp hc
  constructor
  · intro hb
    rw [lexemes_of_read (read_blank hb rest)] at h
    obtain ⟨us, -, rfl⟩ := Option.map_eq_some_iff.mp h
    rfl
  · rintro rfl
    have hsymbol : isSymbol '=' = true := by decide
    rw [lexemes_of_read (read_of_isSymbol hsymbol rest)] at h
    obtain ⟨us, -, rfl⟩ := Option.map_eq_some_iff.mp h
    cases rest <;> rfl

theorem firm_of_lexemes (h : lexemes text = some ts) (hb : ts.head? ≠ some .blank) : Firm text :=
  fun c hc => Bool.eq_false_iff.mpr (mt (head_of_lexemes h c hc).1 hb)

theorem stopsAt_symbol (hc : isSymbol c = true) (he : c ≠ '=') (hl : c ≠ ':') (token : Token) :
    token.StopsAt (c :: text) := by
  rintro d ⟨⟩
  simp only [isSymbol, Bool.and_eq_true, Bool.not_eq_true', bne_iff_ne] at hc
  obtain ⟨⟨⟨⟨hb, -⟩, -⟩, hs⟩, hn⟩ := hc
  cases token <;> simp [Token.runsOn, hb, hs, hn, he, hl]

theorem ofPair_of_ne {d : Char} (hc : c ≠ ':') (hd : d ≠ '=') : Token.ofPair c d = none := by
  fun_cases Token.ofPair c d <;> first | rfl | contradiction

theorem lexemes_sign (hc : isSymbol c = true) (he : c ≠ '=') (hl : c ≠ ':')
    (hp : ∀ d ∈ back.head?, Token.ofPair c d = none) (hf : lexemes front = some ts)
    (hb : lexemes back = some us) :
    lexemes (front ++ c :: back) = some (ts ++ Token.ofSymbol c :: us) := by
  have hgives : Gives front ts (c :: back) :=
    gives_of_lexemes hf fun token _ => stopsAt_symbol hc he hl token
  rw [hgives, lexemes_symbol hc hp, hb]
  rfl

theorem blanks_of_gap (hg : Grammar.Gap gap) (h : lexemes text = some gap) :
    ∀ c ∈ text, isBlank c = true := by
  cases hg with
  | absent =>
    rw [eq_nil_of_lexemes h]
    exact nofun
  | present =>
    cases text with
    | nil => exact nofun
    | cons c text =>
      obtain ⟨token, hr, ht, hrest⟩ := read_of_lexemes h
      have hc := read_eq_blank hr ht
      rw [read_blank hc] at hr
      cases hr
      have hall := List.dropWhile_eq_nil_iff.mp (eq_nil_of_lexemes hrest)
      exact List.forall_mem_cons.mpr ⟨hc, hall⟩

theorem lexemes_blanks (h : ∀ c ∈ front, isBlank c = true) :
    lexemes (front ++ ' ' :: back) =
      (lexemes (back.dropWhile isBlank)).map (.blank :: ·) := by
  cases front with
  | nil => exact lexemes_blank (by decide)
  | cons c front =>
    obtain ⟨hc, hfront⟩ := List.forall_mem_cons.mp h
    have hspace : isBlank ' ' = true := by decide
    rw [List.cons_append, lexemes_blank hc, List.dropWhile_append_of_pos hfront,
      List.dropWhile_cons_of_pos hspace]

theorem lexemes_dropWhile (hg : Grammar.Gap gap) (h : lexemes text = some (gap ++ ts))
    (hb : ts.head? ≠ some .blank) : lexemes (text.dropWhile isBlank) = some ts := by
  cases hg with
  | absent =>
    cases text with
    | nil => exact h
    | cons c text =>
      have hc : ¬isBlank c = true := Bool.eq_false_iff.mp (firm_of_lexemes h hb c rfl)
      rw [List.dropWhile_cons_of_neg hc]
      exact h
  | present =>
    cases text with
    | nil => cases lexemes_nil.symm.trans h
    | cons c text =>
      obtain ⟨token, hr, ht, hrest⟩ := read_of_lexemes h
      have hc := read_eq_blank hr ht
      rw [read_blank hc] at hr
      cases hr
      rw [List.dropWhile_cons_of_pos hc]
      exact hrest

theorem lexemes_space (hg : Grammar.Gap before) (hh : Grammar.Gap after)
    (hf : lexemes front = some (ts ++ before)) (hb : lexemes back = some (after ++ us))
    (ht : ∃ token ∈ ts.getLast?, Grammar.closesCompound token = true)
    (hu : us.head? ≠ some .blank) :
    lexemes (front ++ ' ' :: back) = some (ts ++ .blank :: us) := by
  obtain ⟨body, blanks, rfl, hbody, hblanks, hseam⟩ := exists_split hf
  have hstop : StopAt ts (blanks ++ ' ' :: back) := by
    obtain ⟨last, hl, hc⟩ := ht
    intro token htoken
    refine (hseam token htoken).append fun _ => ?_
    cases hl.symm.trans htoken
    rintro d ⟨⟩
    cases last <;> first | rfl | exact absurd hc nofun
  have hgives : Gives body ts (blanks ++ ' ' :: back) := gives_of_lexemes hbody hstop
  rw [List.append_assoc, hgives, lexemes_blanks (blanks_of_gap hg hblanks),
    lexemes_dropWhile hh hb hu]
  rfl

end Text

section Parse

variable {front back sign : String} {fronts backs list : SelectorList} {init rest : List Selector}
  {left right : Selector}

theorem parse_sign (hf : SelectorList.parse front = .ok fronts)
    (hb : SelectorList.parse back = .ok backs) (hs : sign.toList = [c]) (hc : isSymbol c = true)
    (he : c ≠ '=') (hl : c ≠ ':') (hd : ∀ {ts us}, Grammar.Derives ts fronts →
      Grammar.Derives us backs → Grammar.Derives (ts ++ Token.ofSymbol c :: us) list) :
    SelectorList.parse (front ++ sign ++ back) = .ok list := by
  obtain ⟨ts, hts, hfront⟩ := parse_eq_ok_iff_lexemes.mp hf
  obtain ⟨us, hus, hback⟩ := parse_eq_ok_iff_lexemes.mp hb
  have hpair : ∀ d ∈ back.toList.head?, Token.ofPair c d = none := by
    intro d hd
    exact ofPair_of_ne hl (mt (head_of_lexemes hus d hd).2 hback.head?_ne)
  refine parse_eq_ok_iff_lexemes.mpr ⟨_, ?_, hd hfront hback⟩
  rw [String.toList_append, String.toList_append, hs, List.append_assoc, List.singleton_append]
  exact lexemes_sign hc he hl hpair hts hus

/-- A space joins by the descendant combinator, with all the blank space around it. -/
theorem parse_space (hf : SelectorList.parse front = .ok ⟨init ++ [left]⟩)
    (hb : SelectorList.parse back = .ok ⟨right :: rest⟩) :
    SelectorList.parse (front ++ " " ++ back) =
      .ok ⟨init ++ left.join .descendant right :: rest⟩ := by
  obtain ⟨_, hfront, hg, hm, hh⟩ := parse_eq_ok_iff_lexemes.mp hf
  obtain ⟨_, hback, hderives⟩ := parse_eq_ok_iff_lexemes.mp hb
  obtain @⟨gap, ts, after, _, hg', hm', hh'⟩ := hderives
  rw [← List.append_assoc] at hfront
  obtain ⟨last, hl, hcloses⟩ := hm.ends
  obtain ⟨first, hfirst, hstarts⟩ := hm'.first
  have hhead : (ts ++ after).head? ≠ some .blank := by
    rw [Option.mem_def.mp (List.mem_head?_append_of_mem_head? hfirst)]
    rintro ⟨⟩
    cases hstarts
  have hspace := lexemes_space hh hg' hfront hback
    ⟨last, List.mem_getLast?_append_of_mem_getLast? hl, hcloses⟩ hhead
  refine parse_eq_ok_iff_lexemes.mpr ⟨_, ?_, hm.derives_join hg .blank hm' hh'⟩
  have hblank : " ".toList = [' '] := rfl
  rw [String.toList_append, String.toList_append, List.append_assoc, hblank]
  simpa only [List.append_assoc, List.singleton_append] using hspace

/-- The signs that join compounds, and the space, each with what it stands for. -/
def separators : List (String × Combinator) :=
  [(" ", .descendant), (">", .child), ("+", .nextSibling), ("~", .subsequentSibling)]

/-- Two texts joined by a comma are read as the members of both; joined by a combinator they are read
with the last selector of the one and the first selector of the other made one. -/
theorem parse_join (hf : SelectorList.parse front = .ok fronts)
    (hb : SelectorList.parse back = .ok backs) :
    SelectorList.parse (front ++ "," ++ back) = .ok ⟨fronts.members ++ backs.members⟩ ∧
      ∃ init left right rest, fronts.members = init ++ [left] ∧ backs.members = right :: rest ∧
        ∀ sign combinator, (sign, combinator) ∈ separators →
          SelectorList.parse (front ++ sign ++ back) =
            .ok ⟨init ++ left.join combinator right :: rest⟩ := by
  have hcomma : SelectorList.parse (front ++ "," ++ back) = .ok ⟨fronts.members ++ backs.members⟩ :=
    parse_sign hf hb rfl (by decide) (by decide) (by decide)
      fun hfront hback => hfront.append hback
  obtain ⟨init, left, hinit⟩ : ∃ init left, fronts.members = init ++ [left] :=
    ⟨_, _, (List.dropLast_concat_getLast (regular_of_parse hf).nonempty).symm⟩
  obtain ⟨right, rest, hrest⟩ := List.exists_cons_of_ne_nil (regular_of_parse hb).nonempty
  refine ⟨hcomma, init, left, right, rest, hinit, hrest, fun sign combinator hs => ?_⟩
  obtain ⟨_⟩ := fronts
  obtain ⟨_⟩ := backs
  subst hinit hrest
  have hsign : ∀ {sign : String} {c combinator}, sign.toList = [c] → isSymbol c = true →
      c ≠ '=' → c ≠ ':' → Grammar.Sign (Token.ofSymbol c) (.combinator combinator) →
      SelectorList.parse (front ++ sign ++ back) =
        .ok ⟨init ++ left.join combinator right :: rest⟩ :=
    fun hs hc he hl hsign => parse_sign hf hb hs hc he hl fun hfront hback => hfront.join hback hsign
  simp only [separators, List.mem_cons, List.not_mem_nil, or_false, Prod.mk.injEq] at hs
  rcases hs with ⟨rfl, rfl⟩ | ⟨rfl, rfl⟩ | ⟨rfl, rfl⟩ | ⟨rfl, rfl⟩
  · exact parse_space hf hb
  · exact hsign rfl (by decide) (by decide) (by decide) .greater
  · exact hsign rfl (by decide) (by decide) (by decide) .plus
  · exact hsign rfl (by decide) (by decide) (by decide) .tilde

/-- The blank of an escape at the end of a text is not taken into the space that joins. -/
theorem parse_join_of_escaped_blank :
    let list : SelectorList := ⟨[⟨[Step.any.withClass " "], nofun⟩]⟩
    let joined : Selector := ⟨[Step.any.withClass " ", Step.any.joinedBy .descendant], nofun⟩
    SelectorList.parse ".\\ " = .ok list ∧
      SelectorList.parse (".\\ " ++ " " ++ SelectorList.any.text) = .ok ⟨[joined]⟩ := by
  intro list joined
  have hname : lexemes ['\\', ' '] = some [.ident " "] := by
    have hr : Token.read '\\' [' '] = .ok ⟨.ident " ", 2, []⟩ := rfl
    rw [lexemes_of_read hr, lexemes_nil]
    rfl
  have hdot : Gives ['.'] [.dot] ['\\', ' '] := gives_symbol (by decide) fun _ _ => rfl
  have hl : lexemes ".\\ ".toList = some [.dot, .ident " "] := by
    apply hdot.trans
    rw [hname]
    rfl
  have hw : Grammar.Whole [.dot, .ident " "] [.className " "] :=
    .intro .absent (.last (.untyped (.cons (.className _) .nil)) .absent)
  have h : SelectorList.parse ".\\ " = .ok list := parse_eq_ok_iff.mpr ⟨_, _, hl, hw, rfl⟩
  obtain ⟨-, init, left, right, rest, hinit, hrest, hjoin⟩ := parse_join h parse_text_any
  obtain ⟨rfl, hleft⟩ := List.append_inj' (show [] ++ list.members = init ++ [left] from hinit) rfl
  obtain ⟨rfl⟩ := List.cons.inj hleft
  obtain ⟨rfl, rfl⟩ := List.cons.inj hrest
  exact ⟨h, hjoin " " .descendant List.mem_cons_self⟩

end Parse

end TreeQuery
