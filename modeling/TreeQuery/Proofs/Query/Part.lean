import TreeQuery.Proofs.Query.Relaxed
import TreeQuery.Proofs.Selector.Part
import TreeQuery.Proofs.Selector.Support
import TreeQuery.Proofs.Tree.Names
import TreeQuery.Query.Select

/-! What one more part does to the nodes found.
A class, a test or a pseudo part is asked for beside all the rest, and so is a first id. An id takes
the place of a different one before it; no element has both. -/
namespace TreeQuery

/-- The part is an id that takes the place of a different one. -/
def Event.Displaces (event : Event) (step : Step) : Prop :=
  ∃ wanted name, step.id = some wanted ∧ event = .id name ∧ wanted ≠ name

variable {event : Event} {used : List Token}

theorem Step.relaxes_withPart {step : Step} (hp : Grammar.Part used event)
    (hd : ¬event.Displaces step) : step.Relaxes (step.withPart event) := by
  have hr := Step.Relaxes.refl step
  cases hp with
  | @id token name ht =>
    refine ⟨hr.element, ?_, hr.classes, hr.tests, hr.pseudoClasses, hr.pseudoElements⟩
    cases hi : step.id with
    | none => exact .inl rfl
    | some wanted =>
      have hname : wanted = name := not_not.mp fun hne => hd ⟨wanted, name, hi, rfl, hne⟩
      exact .inr (congrArg some hname)
  | className name =>
    refine ⟨hr.element, hr.id, fun other ho => ?_, hr.tests, hr.pseudoClasses, hr.pseudoElements⟩
    exact NameSet.mem_insert.mpr (.inr ho)
  | test _ =>
    exact ⟨hr.element, hr.id, hr.classes, fun _ => List.mem_append_left _, hr.pseudoClasses,
      hr.pseudoElements⟩
  | pseudoClass name =>
    exact ⟨hr.element, hr.id, hr.classes, hr.tests, fun _ => List.mem_append_left _,
      hr.pseudoElements⟩
  | pseudoElement name =>
    exact ⟨hr.element, hr.id, hr.classes, hr.tests, hr.pseudoClasses,
      fun _ => List.mem_append_left _⟩

theorem Step.combinator_withPart (step : Step) (event : Event) :
    (step.withPart event).combinator = step.combinator := by
  cases event <;> rfl

namespace Selector

variable (selector : Selector)

theorem target_withPart (event : Event) :
    (selector.withPart event).target = selector.target.withPart event :=
  List.getLast_concat

theorem relaxes_withPart (hp : Grammar.Part used event) (hd : ¬event.Displaces selector.target) :
    selector.Relaxes (selector.withPart event) := by
  have hsteps : selector.steps = selector.steps.dropLast ++ [selector.target] :=
    (List.dropLast_concat_getLast selector.nonempty).symm
  have hlonger : (selector.withPart event).steps =
      selector.steps.dropLast ++ [selector.target.withPart event] := rfl
  have hlast : Combinator.Relaxes selector.target.combinator
      (selector.target.withPart event).combinator := by
    rw [Step.combinator_withPart]
    exact .same _
  constructor
  · rw [hsteps, hlonger]
    refine List.rel_append (List.forall₂_same.mpr fun step _ => .refl step) ?_
    exact .cons (Step.relaxes_withPart hp hd) .nil
  · rw [hsteps, hlonger]
    cases selector.steps.dropLast with
    | nil => exact .nil
    | cons first rest =>
      refine List.rel_append (List.forall₂_same.mpr fun step _ => .same step.combinator) ?_
      exact .cons hlast .nil

end Selector

variable {tree : Tree}

/-- An element satisfies both the selector before the part and the one after it exactly if it
satisfies the one after it and the part displaces nothing. -/
theorem Setting.selectorHolds_withPart {setting : Setting}
    (f : setting.tree.Forest setting.tree.children) {member : Selector} {id : NodeId}
    (hp : Grammar.Part used event)
    (hm : setting.selectorHolds true (member.withPart event) id = true) :
    setting.selectorHolds true member id = true ↔ ¬event.Displaces member.target := by
  refine ⟨?_, fun hd => selectorHolds_relax f (member.relaxes_withPart hp hd) hm⟩
  rintro hbefore ⟨wanted, name, hi, rfl, hne⟩
  have hafter := ((selectorHolds_iff f).mp hm).1
  rw [member.target_withPart] at hafter
  have hfirst := ((selectorHolds_iff f).mp hbefore).1.ident wanted hi
  exact hne (Option.some.inj (hfirst.symm.trans (hafter.ident name rfl)))

theorem exists_select (hr : tree.Reachable) {text : String} {list : SelectorList}
    (h : SelectorList.parse text = .ok list) :
    ∃ found, select tree text = .ok found ∧ ∀ id, id ∈ found.toList ↔
      (Session.ofRoot tree).Judges id ∧ Setting.listHolds { tree } list id = true := by
  have hs := (regular_of_parse h).searchable
  have hfind := (Session.ofRoot tree).findList_of_searchable hs
  refine ⟨_, ?_, fun id => Session.mem_findList_iff hr hfind⟩
  rw [select, Session.find_eq, h]
  dsimp only
  rw [hfind]
  rfl

/-- A part behind a selector without blank space between them is read as one more part of the last
compound. What is then found was found before, unless the part displaces another id. -/
theorem select_of_part (hr : tree.Reachable) {text part : String} {member : Selector}
    (h : SelectorList.parse text = .ok ⟨[member]⟩)
    (hl : ∀ c ∈ text.toList.getLast?, isBlank c = false)
    (hused : lexemes part.toList = some used) (hp : Grammar.Part used event) :
    ∃ found fewer, select tree text = .ok found ∧ select tree (text ++ part) = .ok fewer ∧
      ((∀ id ∈ fewer.toList, id ∈ found.toList) ↔
        ¬event.Displaces member.target ∨ fewer.toList = []) := by
  obtain ⟨found, hfound, hmem⟩ := exists_select hr h
  obtain ⟨fewer, hfewer, hmore⟩ := exists_select hr (parse_part h hl hused hp)
  refine ⟨found, fewer, hfound, hfewer, ?_⟩
  have hiff : ∀ id ∈ fewer.toList, (id ∈ found.toList ↔ ¬event.Displaces member.target) := by
    intro id hid
    obtain ⟨hj, hholds⟩ := (hmore id).mp hid
    rw [Setting.listHolds_singleton] at hholds
    rw [hmem, Setting.listHolds_singleton, and_iff_right hj]
    exact Setting.selectorHolds_withPart hr.forest hp hholds
  constructor
  · intro hsub
    rw [or_iff_not_imp_right]
    intro hne
    obtain ⟨id, hid⟩ := List.exists_mem_of_ne_nil _ hne
    exact (hiff id hid).mp (hsub id hid)
  · rintro (hd | hempty) id hid
    · exact (hiff id hid).mpr hd
    · rw [hempty] at hid
      cases hid

section Example

theorem NameTable.lookup_id : NameTable.initial.lookup "id" = some ⟨1⟩ := by
  simp [NameTable.initial, NameTable.commonNames, internAll, intern, lookup, size,
    Std.HashMap.getElem_insert]

theorem Tree.attribute?_grow (name value : String) :
    (grow [.appendElement .root name [("id", value)]]).attribute? ⟨1⟩ "id" = some value := by
  have hid : (NameTable.initial.intern name).2.lookup "id" = some ⟨1⟩ :=
    NameTable.lookup_intern NameTable.lookup_id
  obtain ⟨⟨localName, table⟩, ht⟩ : ∃ named, NameTable.initial.intern name = named := ⟨_, rfl⟩
  rw [ht] at hid
  dsimp only at hid
  have hintern : ∀ nodes, Tree.intern ⟨nodes, table⟩ "id" = (⟨1⟩, ⟨nodes, table⟩) := by
    intro nodes
    rw [intern, NameTable.intern, hid]
  have hcreate : Tree.createElement .empty name =
      (.ok ⟨1⟩, ⟨#[.document, .ofElement { localName }], table⟩) := by
    rw [createElement, intern, empty, ht]
    rfl
  have hgrown : grow [.appendElement .root name [("id", value)]] =
      ⟨#[{ Node.document with firstChild := some ⟨1⟩, lastChild := some ⟨1⟩ },
        { content := .element ⟨{ localName }, [⟨{ localName := ⟨1⟩ }, value⟩]⟩
          parent := some .root }], table⟩ := by
    change (appendElement .empty _ _ _).2 = _
    rw [appendElement, hcreate]
    dsimp only
    rw [setAttributes, setAttribute, hintern]
    rfl
  rw [hgrown, attribute?, hid]
  rfl

theorem lexemes_hash {c : Char} (hc : Token.read c [] = .ok ⟨.ident (.ofList [c]), c.utf8Size, []⟩) :
    lexemes ['#', c] = some [.hash, .ident (.ofList [c])] := by
  have hhash : isSymbol '#' = true := by decide
  rw [lexemes_symbol hhash fun _ _ => rfl, lexemes_of_read hc, lexemes_nil]
  rfl

/-- A text of two ids finds the element with the second one, which the first id alone does not
find. -/
theorem select_of_second_id :
    let tree := Tree.grow [.appendElement .root "cd" [("id", "b")]]
    ∃ found fewer, select tree "#a" = .ok found ∧ select tree ("#a" ++ "#b") = .ok fewer ∧
      ∃ id ∈ fewer.toList, id ∉ found.toList := by
  intro tree
  have hr : tree.Reachable := ⟨_, rfl⟩
  have hd : Grammar.Derives [.hash, .ident "a"] ⟨[⟨[Step.any.withId "a"], nofun⟩]⟩ :=
    Grammar.derives_iff.mpr ⟨[.id "a"],
      .intro .absent (.last (.untyped (.cons (.id (.ident _)) .nil)) .absent), rfl⟩
  have h : SelectorList.parse "#a" = .ok ⟨[⟨[Step.any.withId "a"], nofun⟩]⟩ :=
    parse_eq_ok_iff_lexemes.mpr ⟨_, lexemes_hash rfl, hd⟩
  have hl : ∀ c ∈ "#a".toList.getLast?, isBlank c = false := by
    rintro c ⟨⟩
    decide
  have hused : lexemes "#b".toList = some [.hash, .ident "b"] := lexemes_hash rfl
  have hp : Grammar.Part [.hash, .ident "b"] (.id "b") := .id (.ident _)
  obtain ⟨found, fewer, hfound, hfewer, hiff⟩ := select_of_part hr h hl hused hp
  obtain ⟨other, ho, hmem⟩ := exists_select hr (parse_part h hl hused hp)
  cases hfewer.symm.trans ho
  have hone : ⟨1⟩ ∈ fewer.toList := by
    refine (hmem ⟨1⟩).mpr ⟨⟨.root, ?_, .of_parent? rfl⟩, ?_⟩
    · rw [show (Session.ofRoot tree).found.toList = [.root] from ArrivalSet.toList_ofList _]
      exact List.mem_cons_self
    · rw [Setting.listHolds_singleton, Setting.selectorHolds_iff hr.forest]
      refine ⟨⟨⟨_, rfl, nofun⟩, ?_, nofun, nofun, nofun, nofun⟩, trivial⟩
      rintro wanted ⟨⟩
      exact Tree.attribute?_grow "cd" "b"
  have hlost : ¬∀ id ∈ fewer.toList, id ∈ found.toList := by
    rw [hiff, not_or, not_not]
    exact ⟨⟨"a", "b", rfl, rfl, by decide⟩, List.ne_nil_of_mem hone⟩
  simp only [not_forall] at hlost
  obtain ⟨id, hid, hnot⟩ := hlost
  exact ⟨found, fewer, hfound, hfewer, id, hid, hnot⟩

end Example

end TreeQuery
